import Mathlib.Data.List.Forall2
import Mathlib.Data.List.Nodup
import TypedSyntax.Node.Basic
import TypedSyntax.Proofs.Except

/-!
# The shape of nodes

A node has one value for each attribute of its kind, and the value is a list exactly if the
attribute holds a list (`Node.ShapedAt`). A node is well shaped if this holds of it and of every
node below it (`Node.WellShaped`). The type of nodes does not say so; every operation that makes a
node sees to it by `Attr.conform`, which passes a value only if it has the shape of its attribute.

* `Node.ofAttrs_perm` — well-shaped values, one for each name, are taken as they are, in any order;
* `Node.set_eq_ok_iff` — which replacements of a value succeed, and what they give;
* `Node.ofAttrs_shape`, `Node.set_shape` — whatever is taken gives a node of the right shape, all of
  whose children stood in the values that were given.
-/

namespace TypedSyntax

/-! ### Names that occur once -/

/-- What is listed under a key that occurs once is found. -/
theorem lookup_eq_some_of_mem {κ β : Type} [BEq κ] [LawfulBEq κ] {l : List (κ × β)}
    (hn : (l.map Prod.fst).Nodup) {key : κ} {value : β} (h : (key, value) ∈ l) :
    l.lookup key = some value := by
  cases hl : l.lookup key with
  | none =>
    rw [List.lookup_eq_none_iff] at hl
    exact absurd (beq_self_eq_true key) (by simpa using hl _ h)
  | some other =>
    obtain ⟨before, after, hsplit, -⟩ := List.lookup_eq_some_iff.1 hl
    have hmem : (key, other) ∈ l := hsplit ▸ List.mem_append_right _ List.mem_cons_self
    exact congrArg (fun e => some e.2) (List.inj_on_of_nodup_map hn hmem h rfl)

/-! ### Declared attributes -/

namespace Kind

/-- No kind declares an attribute twice. -/
theorem nodup_attrNames (k : Kind) : k.attrNames.Nodup := by
  have h : ∀ l ∈ all, l.attrNames.Nodup := by decide +kernel
  exact h k (mem_all k)

/-- An attribute is found under its own name. -/
theorem attr?_name {k : Kind} {spec : AttrSpec} (h : spec ∈ k.attrs) :
    k.attr? spec.name = some spec := by
  unfold attr?
  cases hf : k.attrs.find? (·.name == spec.name) with
  | none => exact absurd (beq_self_eq_true spec.name) (List.find?_eq_none.1 hf spec h)
  | some other =>
    have hname := List.find?_some hf
    rw [List.inj_on_of_nodup_map k.nodup_attrNames (List.mem_of_find?_eq_some hf) h
      (eq_of_beq hname)]

/-- The place of an attribute is the one it is declared at. -/
theorem attrIndex?_getElem {k : Kind} {i : Nat} (hi : i < k.attrs.length) :
    k.attrIndex? k.attrs[i].name = some i := by
  unfold attrIndex?
  rw [List.findIdx?_eq_some_iff_getElem]
  refine ⟨hi, beq_self_eq_true _, fun j hj => ?_⟩
  have hlen : k.attrNames.length = k.attrs.length := List.length_map _
  -- An earlier attribute has another name, so the search does not stop there.
  have hne : k.attrNames[j] ≠ k.attrNames[i] := by
    intro heq
    exact absurd ((k.nodup_attrNames.getElem_inj_iff).1 heq) (by omega)
  simpa [attrNames] using hne

/-- An attribute is at a place exactly if its name is declared there. -/
theorem attrIndex?_eq_some_iff {k : Kind} {name : String} {i : Nat} :
    k.attrIndex? name = some i ↔ ∃ hi : i < k.attrs.length, k.attrs[i].name = name := by
  constructor
  · intro h
    obtain ⟨hi, hname, -⟩ := List.findIdx?_eq_some_iff_getElem.1 h
    exact ⟨hi, eq_of_beq hname⟩
  · rintro ⟨hi, rfl⟩
    exact attrIndex?_getElem hi

end Kind

/-! ### Values -/

namespace Attr

variable {α : Type}

/-- The value is a list exactly if the attribute holds a list. -/
def HasShape (spec : AttrSpec) (a : Attr α) : Prop :=
  a.list?.isSome = spec.isList

theorem empty_hasShape (spec : AttrSpec) : (empty spec : Attr α).HasShape spec := by
  obtain ⟨name, isList⟩ := spec
  cases isList <;> rfl

@[simp]
theorem nodes_empty (spec : AttrSpec) : (empty spec : Attr α).nodes = [] := by
  unfold empty
  split
  · simp [nodes, nodesOfList]
  · simp [nodes]

/-- A value of the right shape is stored as it is. -/
theorem conform_eq_ok {kind : Kind} {spec : AttrSpec} {a : Attr α} (h : a.HasShape spec) :
    a.conform kind spec = .ok a := by
  obtain ⟨name, isList⟩ := spec
  cases a <;> cases isList <;> first | rfl | exact absurd h nofun

/-- What an attribute stores of a value that fits it: the value, or the empty list if there is no
value and the attribute holds a list. -/
def stored (spec : AttrSpec) (a : Attr α) : Attr α :=
  if spec.isList ∧ a.isNone then .list [] else a

/-- A value is stored exactly if it fits the attribute. -/
theorem conform_eq_ok_iff {kind : Kind} {spec : AttrSpec} {a b : Attr α} :
    a.conform kind spec = .ok b ↔ a.fits spec = true ∧ b = a.stored spec := by
  unfold conform stored
  by_cases hnone : spec.isList = true ∧ a.isNone = true
  · -- A missing value fits every attribute.
    have hfits : a.fits spec = true := by
      cases a with
      | none => rfl
      | text _ | node _ | list _ => exact absurd hnone.2 Bool.false_ne_true
    rw [if_pos hnone, if_pos hnone, hfits, Except.ok.injEq]
    exact ⟨fun h => ⟨rfl, h.symm⟩, fun h => h.2.symm⟩
  · rw [if_neg hnone, if_neg hnone]
    by_cases hfits : a.fits spec = true
    · rw [if_pos hfits, Except.ok.injEq]
      exact ⟨fun h => ⟨hfits, h.symm⟩, fun h => h.2.symm⟩
    · rw [if_neg hfits]
      exact ⟨nofun, fun h => absurd h.1 hfits⟩

/-- What is stored has the right shape, and its nodes are those of the value that was given. -/
theorem hasShape_of_conform {kind : Kind} {spec : AttrSpec} {a stored : Attr α}
    (h : a.conform kind spec = .ok stored) : stored.HasShape spec ∧ stored.nodes = a.nodes := by
  obtain ⟨hfits, rfl⟩ := conform_eq_ok_iff.1 h
  unfold Attr.stored
  split
  · next hnone =>
    -- The only value that is changed is a missing one, which becomes the empty list.
    cases a with
    | none => exact ⟨hnone.1.symm, by simp [nodes, nodesOfList]⟩
    | text _ | node _ | list _ => exact absurd hnone.2 (by simp [isNone])
  · next hnone =>
    refine ⟨?_, rfl⟩
    cases a <;> simp_all [HasShape, fits, isNone, list?]

theorem nodesOfList_eq_flatMap (as : List (Attr α)) : nodesOfList as = as.flatMap nodes := by
  induction as with
  | nil => rw [nodesOfList, List.flatMap_nil]
  | cons a as ih => rw [nodesOfList, ih, List.flatMap_cons]

theorem mem_nodesOfList {n : α} {as : List (Attr α)} :
    n ∈ nodesOfList as ↔ ∃ a ∈ as, n ∈ a.nodes := by
  rw [nodesOfList_eq_flatMap, List.mem_flatMap]

end Attr

namespace Node

theorem mem_children {m n : Node} : m ∈ n.children ↔ ∃ a ∈ n.attrs, m ∈ a.nodes :=
  Attr.mem_nodesOfList

theorem getElem_mem_zip {α β : Type} {as : List α} {bs : List β} {i : Nat} (ha : i < as.length)
    (hb : i < bs.length) : (as[i], bs[i]) ∈ as.zip bs := by
  refine List.mem_of_getElem? (i := i) (List.getElem?_zip_eq_some.2 ⟨?_, ?_⟩)
  · exact List.getElem?_eq_getElem ha
  · exact List.getElem?_eq_getElem hb

theorem getElem_mem_namedAttrs {n : Node} {i : Nat} (hk : i < n.kind.attrs.length)
    (ha : i < n.attrs.length) : (n.kind.attrs[i].name, n.attrs[i]) ∈ n.namedAttrs := by
  unfold namedAttrs Kind.attrNames
  rw [List.zip_map_left]
  exact List.mem_map.2 ⟨(n.kind.attrs[i], n.attrs[i]), getElem_mem_zip hk ha, rfl⟩

/-! ### Every node inside a node -/

/-- A property holds of a node and of every node below it. -/
inductive All (P : Node → Prop) : Node → Prop where
  | intro {n : Node} (here : P n) (deeper : ∀ m ∈ n.children, All P m) : All P n

theorem All.here {P : Node → Prop} {n : Node} : n.All P → P n
  | .intro here _ => here

theorem All.deeper {P : Node → Prop} {n : Node} : n.All P → ∀ m ∈ n.children, m.All P
  | .intro _ deeper => deeper

theorem all_iff {P : Node → Prop} {n : Node} : n.All P ↔ P n ∧ ∀ m ∈ n.children, m.All P :=
  ⟨fun h => ⟨h.here, h.deeper⟩, fun h => .intro h.1 h.2⟩

theorem All.imp {P Q : Node → Prop} (h : ∀ n, P n → Q n) {n : Node} (hn : n.All P) : n.All Q := by
  induction hn with
  | intro here _ ih => exact .intro (h _ here) ih

theorem forall_mem_walkAll_iff {P : Node → Prop} (pending : List Node) :
    (∀ m ∈ walkAll pending, P m) ↔ ∀ n ∈ pending, n.All P := by
  fun_induction walkAll pending with
  | case1 =>
    exact ⟨fun _ n hn => absurd hn List.not_mem_nil, fun _ m hm => absurd hm List.not_mem_nil⟩
  | case2 n pending ih =>
    -- The first node is visited; its children are pending afterwards.
    rw [List.forall_mem_cons, ih, List.forall_mem_append, List.forall_mem_cons, all_iff, and_assoc]

/-- Nodes that come later are visited after those that come first and everything below them. -/
theorem walkAll_append (ns ms : List Node) : walkAll (ns ++ ms) = walkAll ns ++ walkAll ms := by
  fun_induction walkAll ns with
  | case1 => rfl
  | case2 n pending ih =>
    rw [List.cons_append, walkAll, ← List.append_assoc, ih, List.cons_append]

theorem walkAll_eq_flatMap (ns : List Node) : walkAll ns = ns.flatMap walk := by
  induction ns with
  | nil => rw [walkAll, List.flatMap_nil]
  | cons n ns ih => rw [← List.singleton_append, walkAll_append, ih, List.flatMap_append,
      List.flatMap_singleton, walk]

/-- The walk visits a node and then everything below it, child by child. -/
theorem walk_eq (n : Node) : n.walk = n :: n.children.flatMap walk := by
  rw [walk, walkAll, List.append_nil, walkAll_eq_flatMap]

/-- What holds of all nodes on a walk holds of the node and everything below it. -/
theorem forall_mem_walk_iff {P : Node → Prop} {n : Node} : (∀ m ∈ n.walk, P m) ↔ n.All P := by
  rw [walk, forall_mem_walkAll_iff, List.forall_mem_singleton]

/-! ### Well-shaped nodes -/

/-- There is one value for each attribute of the kind, and it has the shape of the attribute. -/
def ShapedAt (n : Node) : Prop :=
  List.Forall₂ Attr.HasShape n.kind.attrs n.attrs

/-- The node and every node below it have the shape of their kinds. -/
def WellShaped (n : Node) : Prop :=
  n.All ShapedAt

/-! ### Making nodes from named values -/

theorem arrange_eq_ok_iff {kind : Kind} {given : List (String × Attr Node)}
    {specs : List AttrSpec} {values : List (Attr Node)} :
    arrange kind given specs = .ok values ↔
      List.Forall₂ (fun spec value => given.lookup spec.name = some value) specs values := by
  induction specs generalizing values with
  | nil =>
    rw [arrange, List.forall₂_nil_left_iff, Except.ok.injEq]
    exact eq_comm
  | cons spec specs ih =>
    rw [arrange, List.forall₂_cons_left_iff]
    cases hl : given.lookup spec.name with
    | none => exact ⟨nofun, fun ⟨_, _, h, _⟩ => nomatch h⟩
    | some value =>
      simp only [map_eq_ok_iff, ih]
      constructor
      · rintro ⟨rest, hrest, rfl⟩
        exact ⟨value, rest, rfl, hrest, rfl⟩
      · rintro ⟨_, rest, hv, hrest, rfl⟩
        exact ⟨rest, hrest, by rw [Option.some.inj hv]⟩

/-- Values of the right shape that come under different names are all taken, in any order. -/
theorem collect_eq_ok {kind : Kind} {attrs given : List (String × Attr Node)}
    (hattr : ∀ e ∈ attrs, ∃ spec, kind.attr? e.1 = some spec ∧ e.2.HasShape spec)
    (hnodup : (attrs.map Prod.fst).Nodup) (hnew : ∀ e ∈ attrs, given.lookup e.1 = none) :
    collect kind given attrs = .ok (attrs.reverse ++ given) := by
  -- `given` grows on the way, so it has to be free; what is asked of it is only that it lacks the
  -- names still to come.
  induction attrs generalizing given with
  | nil => rfl
  | cons e attrs ih =>
    rw [List.map_cons, List.nodup_cons] at hnodup
    obtain ⟨spec, hspec, hshape⟩ := hattr e List.mem_cons_self
    rw [collect, hspec]
    simp only [hnew e List.mem_cons_self, Option.isSome_none, Bool.false_eq_true, if_false,
      Attr.conform_eq_ok hshape]
    rw [ih (fun e' he' => hattr e' (List.mem_cons_of_mem _ he')) hnodup.2, List.reverse_cons,
      List.append_assoc, List.singleton_append]
    intro e' he'
    have hne : e'.1 ≠ e.1 := fun heq => hnodup.1 (heq ▸ List.mem_map_of_mem he')
    rw [List.lookup_cons, beq_false_of_ne hne]
    exact hnew e' (List.mem_cons_of_mem _ he')

/-- **Values of the right shape make the node that holds them.** They are given with the names of
the attributes, in any order. -/
theorem ofAttrs_perm {kind : Kind} {values : List (Attr Node)} {attrs : List (String × Attr Node)}
    (h : List.Forall₂ Attr.HasShape kind.attrs values)
    (hperm : attrs.Perm (kind.attrNames.zip values)) : ofAttrs kind attrs = .ok ⟨kind, values⟩ := by
  have hzip : kind.attrNames.zip values = (kind.attrs.zip values).map fun e => (e.1.name, e.2) :=
    List.zip_map_left
  have hkeys : (attrs.map Prod.fst).Nodup := by
    have hlen : kind.attrNames.length = values.length := (List.length_map _).trans h.length_eq
    rw [(hperm.map Prod.fst).nodup_iff, List.map_fst_zip (Nat.le_of_eq hlen)]
    exact kind.nodup_attrNames
  -- Collecting takes the values in, in some order, and arranging puts them in declared order.
  have hcollect : collect kind [] attrs = .ok (attrs.reverse ++ []) := by
    refine collect_eq_ok (fun e he => ?_) hkeys (fun _ _ => rfl)
    have hmem := hperm.mem_iff.1 he
    rw [hzip] at hmem
    obtain ⟨⟨spec, value⟩, hpair, rfl⟩ := List.mem_map.1 hmem
    exact ⟨spec, Kind.attr?_name (List.of_mem_zip hpair).1, (List.forall₂_iff_zip.1 h).2 hpair⟩
  rw [List.append_nil] at hcollect
  have harrange : arrange kind attrs.reverse kind.attrs = .ok values := by
    rw [arrange_eq_ok_iff, List.forall₂_iff_zip]
    refine ⟨h.length_eq, fun {spec value} hmem => lookup_eq_some_of_mem ?_ ?_⟩
    · rw [List.map_reverse, List.nodup_reverse]
      exact hkeys
    · rw [List.mem_reverse, hperm.mem_iff, hzip]
      exact List.mem_map.2 ⟨(spec, value), hmem, rfl⟩
  exact bind_eq_ok_iff.2 ⟨_, hcollect, bind_eq_ok_iff.2 ⟨values, harrange, rfl⟩⟩

/-- Values of the right shape, given with the names of the attributes in declared order, make the
node that holds them. -/
theorem ofAttrs_zip {kind : Kind} {values : List (Attr Node)}
    (h : List.Forall₂ Attr.HasShape kind.attrs values) :
    ofAttrs kind (kind.attrNames.zip values) = .ok ⟨kind, values⟩ :=
  ofAttrs_perm h (.refl _)

/-- What is taken under a name is the stored form of a value that was given under that name. -/
theorem mem_of_collect {kind : Kind} {given attrs out : List (String × Attr Node)}
    (h : collect kind given attrs = .ok out) {e : String × Attr Node} (he : e ∈ out) :
    e ∈ given ∨ ∃ spec a, kind.attr? e.1 = some spec ∧ (e.1, a) ∈ attrs ∧
      a.conform kind spec = .ok e.2 := by
  fun_induction collect kind given attrs with
  | case1 given => exact Or.inl (Except.ok.inj h ▸ he)
  -- An unknown name, a name given twice, a value of the wrong shape.
  | case2 => exact absurd h nofun
  | case3 => exact absurd h nofun
  | case4 => exact absurd h nofun
  | case5 given name value rest spec hspec hnew stored hstored ih =>
    rcases ih h with hmem | ⟨spec', a, hs, ha, hc⟩
    · rcases List.mem_cons.1 hmem with rfl | hmem
      · exact Or.inr ⟨spec, value, hspec, List.mem_cons_self, hstored⟩
      · exact Or.inl hmem
    · exact Or.inr ⟨spec', a, hs, List.mem_cons_of_mem _ ha, hc⟩

/-- **A node made from named values has its shape.** Its kind is the given one, and each of its
children stood in one of the values. -/
theorem ofAttrs_shape {kind : Kind} {attrs : List (String × Attr Node)} {n : Node}
    (h : ofAttrs kind attrs = .ok n) :
    n.kind = kind ∧ n.ShapedAt ∧ ∀ m ∈ n.children, ∃ e ∈ attrs, m ∈ e.2.nodes := by
  obtain ⟨given, hgiven, h⟩ := bind_eq_ok_iff.1 h
  obtain ⟨values, hvalues, h⟩ := bind_eq_ok_iff.1 h
  obtain rfl := Except.ok.inj h
  rw [arrange_eq_ok_iff, List.forall₂_iff_zip] at hvalues
  -- Each stored value goes back to a value that was given under the name of its attribute.
  have stored : ∀ spec value, (spec, value) ∈ kind.attrs.zip values →
      ∃ a, (spec.name, a) ∈ attrs ∧ a.conform kind spec = .ok value := by
    intro spec value hmem
    obtain ⟨before, after, hsplit, -⟩ := List.lookup_eq_some_iff.1 (hvalues.2 hmem)
    have hin : (spec.name, value) ∈ given := hsplit ▸ List.mem_append_right _ List.mem_cons_self
    rcases mem_of_collect hgiven hin with hnil | ⟨spec', a, hs, ha, hc⟩
    · exact absurd hnil List.not_mem_nil
    · rw [Kind.attr?_name (List.of_mem_zip hmem).1] at hs
      exact ⟨a, ha, Option.some.inj hs ▸ hc⟩
  refine ⟨rfl, ?_, ?_⟩
  · refine List.forall₂_iff_zip.2 ⟨hvalues.1, fun {spec value} hmem => ?_⟩
    obtain ⟨a, -, hc⟩ := stored spec value hmem
    exact (Attr.hasShape_of_conform hc).1
  · intro m hm
    obtain ⟨value, hv, hm⟩ := mem_children.1 hm
    obtain ⟨i, hi, rfl⟩ := List.getElem_of_mem hv
    have hi' : i < kind.attrs.length := hvalues.1 ▸ hi
    obtain ⟨a, ha, hc⟩ := stored _ _ (getElem_mem_zip hi' hi)
    exact ⟨_, ha, (Attr.hasShape_of_conform hc).2 ▸ hm⟩

/-! ### Replacing a value -/

/-- **Which replacements succeed.** The attribute is declared and the value fits it; then the value
is stored at the place of the attribute. -/
theorem set_eq_ok_iff {n n' : Node} {name : String} {value : Attr Node} :
    n.set name value = .ok n' ↔
      ∃ i, ∃ hi : i < n.kind.attrs.length, n.kind.attrs[i].name = name ∧
        value.fits n.kind.attrs[i] = true ∧
        n' = { n with attrs := n.attrs.set i (value.stored n.kind.attrs[i]) } := by
  have hset : ∀ i (hi : i < n.kind.attrs.length),
      n.set n.kind.attrs[i].name value = (value.conform n.kind n.kind.attrs[i]).map fun stored =>
        { n with attrs := n.attrs.set i stored } := by
    intro i hi
    rw [set, Kind.attrIndex?_getElem hi, Kind.attr?_name (List.getElem_mem hi)]
  constructor
  · intro h
    cases hindex : n.kind.attrIndex? name with
    | none =>
      rw [set, hindex] at h
      exact absurd h nofun
    | some i =>
      obtain ⟨hi, rfl⟩ := Kind.attrIndex?_eq_some_iff.1 hindex
      rw [hset i hi, map_eq_ok_iff] at h
      obtain ⟨stored, hstored, rfl⟩ := h
      obtain ⟨hfits, rfl⟩ := Attr.conform_eq_ok_iff.1 hstored
      exact ⟨i, hi, rfl, hfits, rfl⟩
  · rintro ⟨i, hi, rfl, hfits, rfl⟩
    rw [hset i hi, map_eq_ok_iff]
    exact ⟨_, Attr.conform_eq_ok_iff.2 ⟨hfits, rfl⟩, rfl⟩

/-- **Replacing a value keeps the shape.** Every child of the new node was a child before or stands
in the new value. -/
theorem set_shape {n n' : Node} {name : String} {value : Attr Node}
    (h : n.set name value = .ok n') (hn : n.ShapedAt) :
    n'.ShapedAt ∧ ∀ m ∈ n'.children, m ∈ n.children ∨ m ∈ value.nodes := by
  obtain ⟨i, hi, rfl, hfits, rfl⟩ := set_eq_ok_iff.1 h
  have hstored : value.conform n.kind n.kind.attrs[i] = .ok (value.stored n.kind.attrs[i]) :=
    Attr.conform_eq_ok_iff.2 ⟨hfits, rfl⟩
  obtain ⟨hshape, hnodes⟩ := Attr.hasShape_of_conform hstored
  -- Only the value at `i` is new, and it has the shape of its attribute.
  constructor
  · refine List.forall₂_iff_get.2 ⟨by simpa using hn.length_eq, fun j h₁ h₂ => ?_⟩
    have hj := (List.forall₂_iff_get.1 hn).2 j h₁ (by simpa using h₂)
    simp only [List.get_eq_getElem, List.getElem_set] at hj ⊢
    split
    · next heq =>
      subst heq
      exact hshape
    · exact hj
  · intro m hm
    obtain ⟨a, ha, hma⟩ := mem_children.1 hm
    rcases List.mem_or_eq_of_mem_set ha with ha | rfl
    · exact Or.inl (mem_children.2 ⟨a, ha, hma⟩)
    · rw [hnodes] at hma
      exact Or.inr hma

end Node

end TypedSyntax
