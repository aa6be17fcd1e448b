import TypedSyntax.Grammar.Basic
import TypedSyntax.Worklist

/-!
# Trees over a grammar

A `Tree` is a production together with one `Slot` for each field of the production, in declared
order. A slot holds a list of values; a value is a child tree, or a raw text in a field of
primitive type. Neither the number nor the types of the values are part of the definition, so a
tree may be ill formed: `Tree.validate` looks for a slot whose number of values does not fit.

* `Tree.ofSlots`: the tree with given slots, if they are those of the production.
* `Tree.subtrees`: the child trees, left to right; `Tree.inductionOn` is induction along them.
* `Tree.size`, `Tree.validate`: walk the whole tree with a list of trees that are still to be
  visited, children in front, so that nodes are met before their children and left to right.
-/

namespace TypedSyntax

/-- One value of a slot: a child, or a raw text. -/
inductive Value (α : Type) where
  | child (tree : α)
  | token (text : String)
  deriving DecidableEq

/-- The child, if the value is one. -/
def Value.tree? {α : Type} : Value α → Option α
  | .child t => some t
  | .token _ => none

/-- The values of one field. -/
structure Slot (α : Type) where
  field : Field
  values : List (Value α)

namespace Slot

variable {α : Type}

/-- The slot of a field that holds nothing. -/
def empty (f : Field) : Slot α :=
  ⟨f, []⟩

/-- The children in a slot. -/
def subtrees (s : Slot α) : List α :=
  s.values.filterMap Value.tree?

/-- A slot must hold a number of values that its cardinality admits. -/
def check (s : Slot α) : Except GrammarError Unit :=
  if s.field.cardinality.admits s.values.length then .ok ()
  else .error (.cardinality s.field.name s.field.cardinality s.values.length)

/-- The slot with one more value. Only a slot of multiple cardinality takes more than one. -/
def add (s : Slot α) (v : Value α) : Except GrammarError (Slot α) :=
  if s.field.cardinality = .multiple ∨ s.values = [] then
    .ok { s with values := s.values ++ [v] }
  else .error (.cardinality s.field.name s.field.cardinality (s.values.length + 1))

end Slot

/-- A node over a grammar with everything below it. -/
structure Tree where
  production : Production
  slots : List (Slot Tree)

/-- The first place where two lists differ, as what either list has there. -/
def firstDifference? {α : Type} [DecidableEq α] : List α → List α → Option (Option α × Option α)
  | [], [] => none
  | a :: _, [] => some (some a, none)
  | [], b :: _ => some (none, some b)
  | a :: as, b :: bs => if a = b then firstDifference? as bs else some (some a, some b)

theorem firstDifference?_eq_none_iff {α : Type} [DecidableEq α] {as bs : List α} :
    firstDifference? as bs = none ↔ as = bs := by
  fun_induction firstDifference? as bs <;> simp_all

namespace Tree

/-- The name of the constructor. -/
def name (t : Tree) : String :=
  t.production.name

/-- The tree of a production all of whose slots are empty. -/
def ofProduction (p : Production) : Tree :=
  ⟨p, p.fields.map Slot.empty⟩

/-- The tree of a production with given slots, which must be those of the production, one for each
field and in the same order. -/
def ofSlots (p : Production) (slots : List (Slot Tree)) : Except GrammarError Tree :=
  match firstDifference? p.fields (slots.map Slot.field) with
  | none => .ok ⟨p, slots⟩
  | some (expected, found) =>
    .error (.fieldMismatch p.name (expected.map Field.name) (found.map Field.name))

/-- The slot of the field with a given name. -/
def slot? (t : Tree) (name : String) : Option (Slot Tree) :=
  t.slots.find? (·.field.name == name)

/-- Add a value to the first slot with a given name; there is no result if there is no such
slot. -/
def addTo? (name : String) (v : Value Tree) :
    List (Slot Tree) → Option (Except GrammarError (List (Slot Tree)))
  | [] => none
  | s :: ss =>
    if s.field.name = name then some ((s.add v).map (· :: ss))
    else (addTo? name v ss).map (·.map (s :: ·))

/-- Add a value to the field with a given name. -/
def add? (t : Tree) (name : String) (v : Value Tree) : Option (Except GrammarError Tree) :=
  (addTo? name v t.slots).map (·.map (Tree.mk t.production))

/-- The children, left to right across the slots. -/
def subtrees (t : Tree) : List Tree :=
  t.slots.flatMap Slot.subtrees

/-! ### Children are smaller -/

theorem totalSize_values (vs : List (Value Tree)) :
    totalSize (vs.filterMap Value.tree?) ≤ sizeOf vs := by
  induction vs with
  | nil => simp
  | cons v vs ih =>
    cases v <;>
      simp only [List.filterMap_cons, Value.tree?, totalSize_cons, List.cons.sizeOf_spec,
        Value.child.sizeOf_spec, Value.token.sizeOf_spec] <;>
      omega

theorem totalSize_slots (ss : List (Slot Tree)) :
    totalSize (ss.flatMap Slot.subtrees) ≤ sizeOf ss := by
  induction ss with
  | nil => simp
  | cons s ss ih =>
    obtain ⟨f, vs⟩ := s
    have h := totalSize_values vs
    simp only [List.flatMap_cons, totalSize_append, Slot.subtrees, List.cons.sizeOf_spec,
      Slot.mk.sizeOf_spec] at ih ⊢
    omega

/-- The children together are smaller than the tree. -/
theorem totalSize_subtrees (t : Tree) : totalSize t.subtrees < sizeOf t := by
  obtain ⟨p, ss⟩ := t
  have h := totalSize_slots ss
  simp only [subtrees, Tree.mk.sizeOf_spec]
  omega

theorem sizeOf_lt_of_mem_subtrees {s t : Tree} (h : s ∈ t.subtrees) : sizeOf s < sizeOf t :=
  Nat.lt_of_le_of_lt (sizeOf_le_totalSize h) (totalSize_subtrees t)

/-- Induction along the children. -/
theorem inductionOn {motive : Tree → Prop} (t : Tree)
    (step : ∀ t : Tree, (∀ s ∈ t.subtrees, motive s) → motive t) : motive t :=
  step t fun s _ => inductionOn s step
termination_by sizeOf t
decreasing_by exact sizeOf_lt_of_mem_subtrees ‹_›

/-! ### Walks -/

/-- The number of nodes of the trees in a list, counted on from `count`. Children are put in front
one by one, so that the last one is taken first. -/
def countFrom (count : Nat) : List Tree → Nat
  | [] => count
  | t :: pending => countFrom (count + 1) (t.subtrees.reverse ++ pending)
termination_by pending => totalSize pending
decreasing_by
  have h := totalSize_subtrees t
  simp only [totalSize_append, totalSize_reverse, totalSize_cons]
  omega

/-- The number of nodes of a tree. -/
def size (t : Tree) : Nat :=
  countFrom 0 [t]

/-- Check the slots of the trees in a list: those of a node before those of its children, and
children left to right. -/
def validateAll : List Tree → Except GrammarError Unit
  | [] => .ok ()
  | t :: pending => do
    t.slots.forM Slot.check
    validateAll (t.subtrees ++ pending)
termination_by pending => totalSize pending
decreasing_by
  have h := totalSize_subtrees t
  simp only [totalSize_append, totalSize_cons]
  omega

/-- Every slot of a tree must hold a number of values that its cardinality admits; an error is
that of the first slot that does not. -/
def validate (t : Tree) : Except GrammarError Unit :=
  validateAll [t]

/-! ### Equality -/

mutual

/-- Equality of trees can be decided. -/
def decEq : (s t : Tree) → Decidable (s = t)
  | ⟨p, ss⟩, ⟨q, ts⟩ =>
    if hp : p = q then
      match decEqSlots ss ts with
      | isTrue hs => isTrue (by rw [hp, hs])
      | isFalse hs => isFalse fun h => hs (Tree.mk.inj h).2
    else isFalse fun h => hp (Tree.mk.inj h).1

/-- Equality of lists of slots can be decided. -/
def decEqSlots : (ss ts : List (Slot Tree)) → Decidable (ss = ts)
  | [], [] => isTrue rfl
  | [], _ :: _ => isFalse nofun
  | _ :: _, [] => isFalse nofun
  | s :: ss, t :: ts =>
    match decEqSlot s t with
    | isTrue h =>
      match decEqSlots ss ts with
      | isTrue hs => isTrue (by rw [h, hs])
      | isFalse hs => isFalse fun e => hs (List.cons.inj e).2
    | isFalse h => isFalse fun e => h (List.cons.inj e).1

/-- Equality of slots can be decided. -/
def decEqSlot : (s t : Slot Tree) → Decidable (s = t)
  | ⟨f, vs⟩, ⟨g, ws⟩ =>
    if hf : f = g then
      match decEqValues vs ws with
      | isTrue hv => isTrue (by rw [hf, hv])
      | isFalse hv => isFalse fun h => hv (Slot.mk.inj h).2
    else isFalse fun h => hf (Slot.mk.inj h).1

/-- Equality of lists of values can be decided. -/
def decEqValues : (vs ws : List (Value Tree)) → Decidable (vs = ws)
  | [], [] => isTrue rfl
  | [], _ :: _ => isFalse nofun
  | _ :: _, [] => isFalse nofun
  | v :: vs, w :: ws =>
    match decEqValue v w with
    | isTrue h =>
      match decEqValues vs ws with
      | isTrue hs => isTrue (by rw [h, hs])
      | isFalse hs => isFalse fun e => hs (List.cons.inj e).2
    | isFalse h => isFalse fun e => h (List.cons.inj e).1

/-- Equality of values can be decided. -/
def decEqValue : (v w : Value Tree) → Decidable (v = w)
  | .child s, .child t =>
    match decEq s t with
    | isTrue h => isTrue (by rw [h])
    | isFalse h => isFalse fun e => h (Value.child.inj e)
  | .token a, .token b =>
    if h : a = b then isTrue (by rw [h]) else isFalse fun e => h (Value.token.inj e)
  | .child _, .token _ => isFalse nofun
  | .token _, .child _ => isFalse nofun

end

instance : DecidableEq Tree :=
  decEq

end Tree

end TypedSyntax
