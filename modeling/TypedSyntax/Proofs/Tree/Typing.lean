import Mathlib.Data.List.Forall2
import TypedSyntax.Proofs.Grammar.Lookup
import TypedSyntax.Tree.Basic

/-!
# Trees over a grammar and well-typed trees

A tree may hold anything. Two conditions, each asked of a node and of all nodes below it, say how
well it fits a grammar:

* `Tree.Over` — every node instantiates a production of the grammar, with one slot for each field
  of the production and in the same order. This is all that `Tree.ofSlots` sees to.
* `Tree.WellTyped` — moreover every slot holds as many values as its cardinality admits, a field of
  primitive type holds texts, and any other field holds trees of its type.
-/

namespace TypedSyntax

/-- A value may stand in a field of a given type. -/
def Value.HasType (g : Grammar) (typeName : String) : Value Tree → Prop
  | .token _ => g.isPrimitive typeName = true
  | .child t => g.isPrimitive typeName = false ∧ t.production.typeName = typeName

namespace Tree

variable {g : Grammar} {P Q : Tree → Prop} {s t : Tree}

/-! ### Conditions on all nodes -/

/-- A property holds of a node and of every node below it. -/
inductive All (P : Tree → Prop) : Tree → Prop where
  | intro {t : Tree} (here : P t) (deeper : ∀ s ∈ t.subtrees, All P s) : All P t

theorem All.here : t.All P → P t
  | .intro here _ => here

theorem All.deeper : t.All P → ∀ s ∈ t.subtrees, s.All P
  | .intro _ deeper => deeper

theorem All.imp (h : ∀ t, P t → Q t) (ht : t.All P) : t.All Q := by
  induction ht with
  | intro here _ ih => exact .intro (h _ here) ih

/-- A value of a slot that is a tree is a child. -/
theorem mem_subtrees : s ∈ t.subtrees ↔ ∃ slot ∈ t.slots, Value.child s ∈ slot.values := by
  unfold subtrees
  rw [List.mem_flatMap]
  refine exists_congr fun slot => and_congr_right fun _ => ?_
  unfold Slot.subtrees
  rw [List.mem_filterMap]
  constructor
  · rintro ⟨v, hv, h⟩
    cases v with
    | token text => exact absurd h nofun
    | child u => exact Option.some.inj h ▸ hv
  · intro h
    exact ⟨_, h, rfl⟩

/-- A node without slots has no children. -/
theorem all_of_slots_eq_nil (h : P t) (hs : t.slots = []) : t.All P := by
  refine .intro h fun s hmem => ?_
  obtain ⟨slot, hslot, -⟩ := mem_subtrees.1 hmem
  rw [hs] at hslot
  exact absurd hslot List.not_mem_nil

/-! ### Fitting a grammar -/

/-- The node instantiates a production of the grammar, with the slots of that production. -/
structure MirrorsAt (g : Grammar) (t : Tree) : Prop where
  /-- The production is one of the grammar. -/
  mem : t.production ∈ g.productions
  /-- There is one slot for each field, in declared order. -/
  fields : t.slots.map Slot.field = t.production.fields

/-- Every node instantiates a production of the grammar, with the slots of that production. -/
def Over (g : Grammar) (t : Tree) : Prop :=
  t.All (MirrorsAt g)

/-- The node fits the grammar, and so do its values. -/
structure TypedAt (g : Grammar) (t : Tree) : Prop extends MirrorsAt g t where
  /-- Every slot holds as many values as its cardinality admits. -/
  counts : ∀ s ∈ t.slots, s.field.cardinality.admits s.values.length = true
  /-- Every value has the type of its field. -/
  values : ∀ s ∈ t.slots, ∀ v ∈ s.values, v.HasType g s.field.typeName

/-- Every node fits the grammar, and so do its values. -/
def WellTyped (g : Grammar) (t : Tree) : Prop :=
  t.All (TypedAt g)

theorem WellTyped.over (h : t.WellTyped g) : t.Over g :=
  h.imp fun _ ht => ht.toMirrorsAt

/-- A production of the grammar is found under the name of any node that instantiates it. -/
theorem MirrorsAt.production? (h : t.MirrorsAt g) : g.production? t.name = some t.production :=
  Grammar.production?_name h.mem

theorem MirrorsAt.mem_fields (h : t.MirrorsAt g) {slot : Slot Tree} (hs : slot ∈ t.slots) :
    slot.field ∈ t.production.fields :=
  h.fields ▸ List.mem_map_of_mem hs

/-- A node of a production without fields has no slots. -/
theorem MirrorsAt.slots_eq_nil (h : t.MirrorsAt g) (hf : t.production.fields = []) :
    t.slots = [] := by
  have hmap := h.fields
  rw [hf] at hmap
  exact List.map_eq_nil_iff.1 hmap

end Tree

end TypedSyntax
