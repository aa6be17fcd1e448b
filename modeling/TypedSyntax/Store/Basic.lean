/-!
# Stores that forget what was used least recently

A store has room for a fixed number of values, each under a key of its own. How it keeps them is
left open: a store is any type with the operations of `RecencyStore`, and what is known about them
is said by laws. The entries of a store can be listed, the most recently used first, and every law
says what an operation reads from this list or does to it.

* `RecencyStore.Honest`: only what has been put in under a key is found under it. This says nothing
  about when an entry goes.
* `RecencyStore.Lawful`: a value that is found comes to the first place, asking whether there is one
  moves nothing, and a value under a new key comes in the first place, for which the last one goes
  if there is no room.
-/

namespace TypedSyntax

/-- The operations of a store `σ` with values `α` under keys `κ`. -/
class RecencyStore (σ : Type) (κ α : outParam Type) where
  /-- An empty store with room for so many values. -/
  new (capacity : Nat) : σ
  /-- The number of values that there is room for. -/
  capacity (store : σ) : Nat
  /-- The number of values. -/
  size (store : σ) : Nat
  /-- Whether there is a value under a key. This is not a use of it. -/
  contains (store : σ) (key : κ) : Bool
  /-- The value under a key, if there is one, and the store behind this use of it. -/
  get (store : σ) (key : κ) : Option α × σ
  /-- The store with a value under a key. -/
  push (store : σ) (key : κ) (value : α) : σ
  /-- The store without its values. -/
  clear (store : σ) : σ
  /-- The keys with their values, the most recently used first. -/
  entries (store : σ) : List (κ × α)

namespace RecencyStore

variable {κ α : Type}

/-- An entry comes to the first place, and the others stay in their order. -/
def Promotes (entry : κ × α) (old new : List (κ × α)) : Prop :=
  ∃ before after, old = before ++ entry :: after ∧ new = entry :: (before ++ after)

/-- The entries with another one in the first place. If there is no room for it the last one
goes. -/
def insertFirst (capacity : Nat) (entry : κ × α) (entries : List (κ × α)) : List (κ × α) :=
  entry :: if entries.length < capacity then entries else entries.dropLast

/-- Whatever is in the store has been put in under its key. -/
class Honest (σ : Type) {κ α : Type} [RecencyStore σ κ α] : Prop where
  entries_new (capacity : Nat) : entries (new capacity : σ) = []
  entries_clear (store : σ) : entries (clear store) = []
  /-- What is found is there. -/
  mem_of_get {store : σ} {key : κ} {value : α} :
    (get store key).1 = some value → (key, value) ∈ entries store
  /-- A use brings nothing in. -/
  entries_get_subset (store : σ) (key : κ) : entries (get store key).2 ⊆ entries store
  /-- Nothing else comes in with a value. -/
  entries_push_subset (store : σ) (key : κ) (value : α) :
    entries (push store key value) ⊆ (key, value) :: entries store

/-- The store keeps what was used last. -/
class Lawful (σ : Type) {κ α : Type} [RecencyStore σ κ α] : Prop extends Honest σ where
  capacity_new {n : Nat} : 0 < n → capacity (new n : σ) = n
  size_eq (store : σ) : size store = (entries store).length
  contains_iff {store : σ} {key : κ} :
    contains store key = true ↔ key ∈ (entries store).map Prod.fst
  /-- A value that is found comes to the first place. -/
  promotes_of_get {store : σ} {key : κ} {value : α} : (get store key).1 = some value →
    Promotes (key, value) (entries store) (entries (get store key).2)
  /-- If nothing is found there is nothing under the key. -/
  not_mem_of_get {store : σ} {key : κ} :
    (get store key).1 = none → key ∉ (entries store).map Prod.fst
  /-- If nothing is found nothing moves. -/
  entries_get {store : σ} {key : κ} :
    (get store key).1 = none → entries (get store key).2 = entries store
  /-- A value under a new key comes in the first place, for which the last one may have to go. -/
  entries_push {store : σ} {key : κ} (value : α) : key ∉ (entries store).map Prod.fst →
    entries (push store key value) = insertFirst (capacity store) (key, value) (entries store)
  capacity_get (store : σ) (key : κ) : capacity (get store key).2 = capacity store
  capacity_push (store : σ) (key : κ) (value : α) :
    capacity (push store key value) = capacity store
  capacity_clear (store : σ) : capacity (clear store) = capacity store

end RecencyStore

end TypedSyntax
