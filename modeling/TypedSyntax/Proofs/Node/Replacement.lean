import TypedSyntax.Proofs.Node.Built

/-!
# Replacing values in place

A node is changed by replacing the value of one attribute. `Node.set` gives the new node; a program
has the old one in hands and changes it, and when the replacement fails it goes on with what is left
of it. `Node.replace` is the operation as it runs on a node in place: the node is a state, and a
failure does not take back what happened to it. The two agree (`Node.run_replace`), because the
value is checked before anything is stored.

* `Node.replaced_of_set` — what a replacement that succeeds changes, and what it does not;
* `Node.Built.keeps_shape` — every node inside a built node has the shape of its kind, a failing
  replacement leaves the node as it was, and a succeeding one changes one attribute only.
-/

namespace TypedSyntax

/-! ### The shape of a value -/

namespace Attr

variable {α : Type}

/-- A value has the shape of its attribute if it is a list where a list is declared, and no list
elsewhere. -/
theorem hasShape_iff {spec : AttrSpec} {a : Attr α} :
    a.HasShape spec ↔ (spec.isList = true → ∃ items, a = .list items) ∧
      (spec.isList = false → ∀ items, a ≠ .list items) := by
  obtain ⟨name, isList⟩ := spec
  cases a <;> cases isList <;> simp [HasShape, list?]

end Attr

namespace Node

/-! ### One replacement -/

/-- A node of the right shape has a value of the right shape under each declared name. -/
theorem ShapedAt.get? {n : Node} (h : n.ShapedAt) {spec : AttrSpec} (hspec : spec ∈ n.kind.attrs) :
    ∃ a, n.get? spec.name = some a ∧ a.HasShape spec := by
  -- A name is looked up among the declared names, and its place there is the place of its value.
  obtain ⟨i, hi, rfl⟩ := List.getElem_of_mem hspec
  have hi' : i < n.attrs.length := h.length_eq ▸ hi
  refine ⟨n.attrs[i], ?_, (List.forall₂_iff_get.1 h).2 i hi hi'⟩
  rw [Node.get?, Kind.attrIndex?_getElem hi, Option.bind_some, List.getElem?_eq_getElem hi']

/-- The node after is the node before with the value of one attribute replaced. -/
structure Replaced (n : Node) (name : String) (value : Attr Node) (n' : Node) : Prop where
  /-- The kind is the same. -/
  kind : n'.kind = n.kind
  /-- No value is added or lost. -/
  count : n'.attrs.length = n.attrs.length
  /-- The name is declared, and it now has the value in the form in which it is stored. -/
  new : ∃ spec ∈ n.kind.attrs, spec.name = name ∧ n'.get? name = some (value.stored spec)
  /-- Every other name, declared or not, has what it had. -/
  others : ∀ other, other ≠ name → n'.get? other = n.get? other

/-- A replacement that succeeds changes nothing but the attribute it names. -/
theorem replaced_of_set {n n' : Node} {name : String} {value : Attr Node} (hn : n.ShapedAt)
    (h : n.set name value = .ok n') : n.Replaced name value n' := by
  obtain ⟨i, hi, rfl, -, rfl⟩ := set_eq_ok_iff.1 h
  have hi' : i < n.attrs.length := hn.length_eq ▸ hi
  refine ⟨rfl, List.length_set, ⟨_, List.getElem_mem hi, rfl, ?_⟩, fun other hother => ?_⟩
  · rw [get?, Kind.attrIndex?_getElem hi, Option.bind_some, List.getElem?_set_self hi']
  · -- Another attribute has another place.
    unfold get?
    cases hj : n.kind.attrIndex? other with
    | none => rfl
    | some j =>
      obtain ⟨hj, hname⟩ := Kind.attrIndex?_eq_some_iff.1 hj
      have hij : i ≠ j := by
        intro hij
        subst hij
        exact hother hname.symm
      exact List.getElem?_set_ne hij

/-! ### Replacing in place -/

/-- Replace the value of an attribute of a node in place. A failure ends it with the node as it is
at that point. -/
def replace (name : String) (value : Attr Node) : EStateM NodeError Node Unit := do
  let n ← get
  match n.kind.attrIndex? name, n.kind.attr? name with
  | some i, some spec =>
    let stored ← MonadExcept.ofExcept (value.conform n.kind spec)
    modify fun n => { n with attrs := n.attrs.set i stored }
  | _, _ => throw (.unknownAttribute n.kind name)

/-- The outcome of replacing in place, and the node that is left. -/
theorem run_replace (n : Node) (name : String) (value : Attr Node) :
    (replace name value).run n = match n.set name value with
      | .ok n' => .ok () n'
      | .error e => .error e n := by
  unfold set
  simp only [replace, EStateM.run_bind, EStateM.run_get]
  -- Both look up the name and check the value in the same order, and the state changes only behind
  -- the last of these.
  cases hi : n.kind.attrIndex? name with
  | none => rfl
  | some i =>
    cases hs : n.kind.attr? name with
    | none => rfl
    | some spec =>
      cases hc : value.conform n.kind spec with
      | error e =>
        simp only [hc]
        rfl
      | ok stored =>
        simp only [hc]
        rfl

/-- **Built nodes keep their shape.** The node and every node inside it, in lists at any depth, has
one value for each attribute of its kind, a list exactly where the attribute holds a list. Replacing
in place is `Node.set`: a failure leaves the node unchanged, and a success changes the named
attribute only and gives a node that is built again if the new value is made of built nodes. -/
theorem Built.keeps_shape {n : Node} (hn : n.Built) :
    (∀ m ∈ n.walk, m.attrs.length = m.kind.attrs.length ∧ ∀ spec ∈ m.kind.attrs,
      ∃ a, m.get? spec.name = some a ∧ (spec.isList = true → ∃ items, a = .list items) ∧
        (spec.isList = false → ∀ items, a ≠ .list items)) ∧
    ∀ (name : String) (value : Attr Node),
      (∀ e n', (replace name value).run n = .error e n' →
        n.set name value = .error e ∧ n' = n) ∧
      (∀ n', (replace name value).run n = .ok () n' →
        n.set name value = .ok n' ∧ n.Replaced name value n' ∧
          ((∀ m ∈ value.nodes, m.Built) → n'.Built)) := by
  refine ⟨?_, fun name value => ?_⟩
  · -- The shape is an invariant of all that is built, and it reaches every node of the walk.
    rw [forall_mem_walk_iff]
    refine hn.wellShaped.imp fun m (hm : m.ShapedAt) => ⟨hm.length_eq.symm, fun spec hspec => ?_⟩
    obtain ⟨a, ha, hshape⟩ := hm.get? hspec
    exact ⟨a, ha, Attr.hasShape_iff.1 hshape⟩
  · -- In place or not, there is one outcome, so the state that is left can be read off it.
    rw [run_replace]
    cases hset : n.set name value with
    | error e =>
      refine ⟨fun e' n' h => ?_, fun n' h => absurd h nofun⟩
      obtain ⟨rfl, rfl⟩ := EStateM.Result.error.inj h
      exact ⟨rfl, rfl⟩
    | ok n₁ =>
      refine ⟨fun e' n' h => absurd h nofun, fun n' h => ?_⟩
      obtain ⟨-, rfl⟩ := EStateM.Result.ok.inj h
      exact ⟨rfl, replaced_of_set hn.wellShaped.here hset, fun hvalue => .set hn hvalue hset⟩

/-- A block with a list inside a list keeps its shape; giving it no items empties it, and a text in
the place of its items is refused. -/
theorem Built.keeps_shape_block :
    ∃ n : Node, n.Built ∧ n.get? "block_items" = some (.list [.list [.node (.id "x")]]) ∧
      (∀ m ∈ n.walk, m.attrs.length = m.kind.attrs.length) ∧
      (∃ n', (replace "block_items" .none).run n = .ok () n' ∧
        n.Replaced "block_items" .none n' ∧ n'.get? "block_items" = some (.list [])) ∧
      ∃ e, (replace "block_items" (.text "x")).run n = .error e n := by
  have hn : (Node.mk .compound [.list [.list [.node (.id "x")]]]).Built :=
    built_iff.2 (wellShaped_of_attrs (.cons rfl .nil)
      (by simpa [Attr.nodes, Attr.nodesOfList] using (Built.id "x").wellShaped))
  obtain ⟨hshape, hreplace⟩ := hn.keeps_shape
  refine ⟨_, hn, rfl, fun m hm => (hshape m hm).1, ⟨_, rfl, ?_, rfl⟩, _, rfl⟩
  exact ((hreplace _ _).2 _ rfl).2.1

end Node

end TypedSyntax
