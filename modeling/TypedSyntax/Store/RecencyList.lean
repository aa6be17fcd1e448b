import TypedSyntax.Store.Basic

/-!
# Stores as lists

The plainest store that forgets what was used least recently is the list of its entries, the most
recently used first. Every operation goes through the list once.

* `RecencyList.instLawful`: it keeps the laws of such a store.
-/

namespace TypedSyntax

/-- A store that is the list of its entries, the most recently used first. -/
structure RecencyList (κ α : Type) where
  /-- The number of values that there is room for. -/
  capacity : Nat
  entries : List (κ × α) := []

namespace RecencyList

variable {κ α : Type} [DecidableEq κ]

/-- The entries under other keys. -/
def others (store : RecencyList κ α) (key : κ) : List (κ × α) :=
  store.entries.eraseP (·.1 = key)

/-- The value under a key, which then comes to the first place. -/
def get (store : RecencyList κ α) (key : κ) : Option α × RecencyList κ α :=
  match store.entries.lookup key with
  | none => (none, store)
  | some value => (some value, { store with entries := (key, value) :: store.others key })

/-- The store with a value under a key, in the first place. -/
def push (store : RecencyList κ α) (key : κ) (value : α) : RecencyList κ α :=
  { store with entries := RecencyStore.insertFirst store.capacity (key, value) (store.others key) }

instance : RecencyStore (RecencyList κ α) κ α where
  new capacity := { capacity }
  capacity := capacity
  size store := store.entries.length
  contains store key := (store.entries.lookup key).isSome
  get := get
  push := push
  clear store := { store with entries := [] }
  entries := entries

/-! ### The laws -/

theorem others_eq_self {store : RecencyList κ α} {key : κ}
    (h : key ∉ store.entries.map Prod.fst) : store.others key = store.entries := by
  refine List.eraseP_of_forall_not fun entry hentry hkey => h ?_
  rw [← of_decide_eq_true hkey]
  exact List.mem_map_of_mem hentry

theorem lookup_eq_none_iff_not_mem {entries : List (κ × α)} {key : κ} :
    entries.lookup key = none ↔ key ∉ entries.map Prod.fst := by
  simp only [List.lookup_eq_none_iff, List.mem_map, bne_iff_ne, ne_eq, not_exists, not_and]
  exact forall₂_congr fun entry _ => not_congr eq_comm

/-- The entry that is found is the first one under its key, and taking it out leaves those around
it. -/
theorem promotes_of_lookup {store : RecencyList κ α} {key : κ} {value : α}
    (h : store.entries.lookup key = some value) :
    RecencyStore.Promotes (key, value) store.entries ((key, value) :: store.others key) := by
  obtain ⟨before, after, hentries, hbefore⟩ := List.lookup_eq_some_iff.1 h
  refine ⟨before, after, hentries, ?_⟩
  have hnot : ∀ entry ∈ before, ¬ decide (entry.1 = key) = true := by
    intro entry hentry hkey
    exact (bne_iff_ne.1 (hbefore entry hentry)) (of_decide_eq_true hkey).symm
  rw [others, hentries, List.eraseP_append_right _ hnot, List.eraseP_cons_of_pos (by simp)]

theorem promotes_of_get {store : RecencyList κ α} {key : κ} {value : α}
    (h : (store.get key).1 = some value) :
    RecencyStore.Promotes (key, value) store.entries (store.get key).2.entries := by
  unfold get at h ⊢
  cases hlookup : store.entries.lookup key with
  | none => simp [hlookup] at h
  | some found =>
    obtain rfl : found = value := by simpa [hlookup] using h
    exact promotes_of_lookup hlookup

theorem get_eq_of_none {store : RecencyList κ α} {key : κ} (h : (store.get key).1 = none) :
    key ∉ store.entries.map Prod.fst ∧ (store.get key).2 = store := by
  unfold get at h ⊢
  cases hlookup : store.entries.lookup key with
  | none => exact ⟨lookup_eq_none_iff_not_mem.1 hlookup, rfl⟩
  | some found => simp [hlookup] at h

theorem capacity_get (store : RecencyList κ α) (key : κ) :
    (store.get key).2.capacity = store.capacity := by
  unfold get
  split <;> rfl

theorem entries_get_subset (store : RecencyList κ α) (key : κ) :
    (store.get key).2.entries ⊆ store.entries := by
  cases h : (store.get key).1 with
  | none =>
    rw [(get_eq_of_none h).2]
    exact List.Subset.refl _
  | some value =>
    obtain ⟨before, after, hold, hnew⟩ := promotes_of_get h
    rw [hold, hnew]
    exact List.perm_middle.symm.subset

theorem entries_push_subset (store : RecencyList κ α) (key : κ) (value : α) :
    (store.push key value).entries ⊆ (key, value) :: store.entries := by
  have hothers : store.others key ⊆ store.entries := List.eraseP_subset
  refine List.cons_subset_cons _ ?_
  split
  · exact hothers
  · exact List.Subset.trans (List.dropLast_subset _) hothers

instance instLawful : RecencyStore.Lawful (RecencyList κ α) where
  entries_new _ := rfl
  entries_clear _ := rfl
  mem_of_get {store key value} h := by
    obtain ⟨before, after, hentries, -⟩ := promotes_of_get h
    simp [RecencyStore.entries, hentries]
  entries_get_subset := entries_get_subset
  entries_push_subset := entries_push_subset
  capacity_new _ := rfl
  size_eq _ := rfl
  contains_iff {store key} := by
    change (store.entries.lookup key).isSome = true ↔ key ∈ store.entries.map Prod.fst
    rw [← Decidable.not_iff_not, ← lookup_eq_none_iff_not_mem, Bool.not_eq_true,
      Option.isSome_eq_false_iff, Option.isNone_iff_eq_none]
  promotes_of_get := promotes_of_get
  not_mem_of_get h := (get_eq_of_none h).1
  entries_get h := congrArg entries (get_eq_of_none h).2
  entries_push {store key} value h :=
    congrArg (RecencyStore.insertFirst store.capacity (key, value)) (others_eq_self h)
  capacity_get := capacity_get
  capacity_push _ _ _ := rfl
  capacity_clear _ := rfl

end RecencyList

end TypedSyntax
