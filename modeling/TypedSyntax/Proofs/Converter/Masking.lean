import TypedSyntax.Node.Builders
import TypedSyntax.Proofs.CGrammar
import TypedSyntax.Proofs.Converter.Correspondence

/-!
# What a subword model can change

A model decides how texts are cut into pieces, and nothing else. To say so, every child in a field
of a leaf type is *masked*: it is replaced by one value that is fixed beforehand (`Tree.mask`). What
is left is the tree as far as no model has a say in it.

* `Converter.models_change_leaves` — two converters over one grammar, with any models or none, fail
  on a node with the same error, or they encode it as trees that are the same when masked.

Nothing is asked of the grammar beyond its leaf productions, and nothing of the node: neither the
agreement of the two nor the shape of the values. So the two runs cannot be described by what they
produce. They are followed side by side, from the inside out, with one lemma for each function of
the encoder (`EndAlike`). The runs part only where a leaf is made, and there both succeed
(`Converter.encodeLeaf_eq`), so that neither can fail before the other.
-/

namespace TypedSyntax

/-! ### Masks -/

/-- Whether a name is that of a leaf type. -/
def LeafKind.isTypeName (typeName : String) : Bool :=
  typeName == LeafKind.ident.typeName || typeName == LeafKind.str.typeName

theorem LeafKind.isTypeName_typeName (leaf : LeafKind) :
    LeafKind.isTypeName leaf.typeName = true := by
  cases leaf <;> decide

namespace Tree

mutual

/-- The tree with every child in a field of a leaf type, at any depth, replaced by `hole`. -/
def mask (hole : Value Tree) : Tree → Tree
  | ⟨p, slots⟩ => ⟨p, maskSlots hole slots⟩

/-- A list of slots with masked leaves. -/
def maskSlots (hole : Value Tree) : List (Slot Tree) → List (Slot Tree)
  | [] => []
  | ⟨f, values⟩ :: ss =>
    ⟨f, maskValues hole (LeafKind.isTypeName f.typeName) values⟩ :: maskSlots hole ss

/-- A list of values, which are leaves or not. -/
def maskValues (hole : Value Tree) (leaves : Bool) : List (Value Tree) → List (Value Tree)
  | [] => []
  | v :: vs => maskValue hole leaves v :: maskValues hole leaves vs

/-- A value, which is a leaf or not. -/
def maskValue (hole : Value Tree) (leaf : Bool) : Value Tree → Value Tree
  | .token text => .token text
  | .child t => if leaf then hole else .child (mask hole t)

end

/-- A slot with masked leaves. -/
def maskSlot (hole : Value Tree) (s : Slot Tree) : Slot Tree :=
  ⟨s.field, s.values.map (maskValue hole (LeafKind.isTypeName s.field.typeName))⟩

theorem maskValues_eq_map (hole : Value Tree) (leaves : Bool) (vs : List (Value Tree)) :
    maskValues hole leaves vs = vs.map (maskValue hole leaves) := by
  induction vs with
  | nil => rw [maskValues, List.map_nil]
  | cons v vs ih => rw [maskValues, List.map_cons, ih]

theorem maskSlots_eq_map (hole : Value Tree) (ss : List (Slot Tree)) :
    maskSlots hole ss = ss.map (maskSlot hole) := by
  induction ss with
  | nil => rw [maskSlots, List.map_nil]
  | cons s ss ih => rw [maskSlots, List.map_cons, ih, maskValues_eq_map, maskSlot]

/-- A node keeps its production, and its slots are masked one by one. -/
theorem mask_eq (hole : Value Tree) (t : Tree) :
    t.mask hole = ⟨t.production, t.slots.map (maskSlot hole)⟩ := by
  obtain ⟨p, slots⟩ := t
  rw [mask, maskSlots_eq_map]

end Tree

/-! ### Two encoders side by side -/

namespace Converter

variable {c d : Converter} {p : Production} {f : Field} {hole : Value Tree}

/-- Two encoders end alike on a node: with one error, or with trees that are the same when
masked. -/
def AlikeOn (c d : Converter) (hole : Value Tree) (n : Node) : Prop :=
  EndAlike (fun t u => t.mask hole = u.mask hole) (c.encode n) (d.encode n)

/-- An error describes a value by what stands in the node, not by what became of it. -/
theorem describeAttr_encodeAttr (c d : Converter) (a : Attr Node) :
    describeAttr (c.encodeAttr a) = describeAttr (d.encodeAttr a) := by
  cases a with
  | none | text s => rw [encodeAttr, encodeAttr]
  | node n => rw [encodeAttr_node, encodeAttr_node, describeAttr, describeAttr]
  | list items =>
    rw [encodeAttr_list, encodeAttr_list, describeAttr, describeAttr, List.length_map,
      List.length_map]

/-- Both encoders take the same values from an attribute, or refuse it alike. The values hold only
nodes of the attribute. -/
theorem elements_alike (c d : Converter) (p : Production) (f : Field) (a : Attr Node) :
    EndAlike
      (fun es es' => ∃ items : List (Attr Node), es = items.map c.encodeAttr ∧
        es' = items.map d.encodeAttr ∧ ∀ i ∈ items, i.nodes ⊆ a.nodes)
      (elements p f (c.encodeAttr a)) (elements p f (d.encodeAttr a)) := by
  cases a with
  | none =>
    rw [encodeAttr, encodeAttr]
    cases hk : f.cardinality with
    | single =>
      simp only [elements, hk]
      exact .error _
    | optional | multiple =>
      simp only [elements, hk]
      exact .ok ⟨[], rfl, rfl, fun i hi => absurd hi List.not_mem_nil⟩
  | list items =>
    rw [encodeAttr_list, encodeAttr_list]
    cases hk : f.cardinality with
    | single | optional =>
      simp only [elements, hk, List.length_map]
      exact .error _
    | multiple =>
      simp only [elements, hk]
      refine .ok ⟨items, rfl, rfl, fun i hi m hm => ?_⟩
      rw [Attr.nodes]
      exact Attr.mem_nodesOfList.2 ⟨i, hi, hm⟩
  | text s =>
    by_cases hk : f.cardinality = .multiple
    · simp only [elements, hk, encodeAttr]
      exact .error _
    · rw [elements_scalar hk ⟨rfl, rfl⟩, elements_scalar hk ⟨rfl, rfl⟩]
      exact .ok ⟨[.text s], rfl, rfl, fun i hi => List.mem_singleton.1 hi ▸ List.Subset.refl _⟩
  | node m =>
    by_cases hk : f.cardinality = .multiple
    · simp only [elements, hk, encodeAttr_node, describeAttr]
      exact .error _
    · rw [elements_scalar hk ⟨rfl, rfl⟩, elements_scalar hk ⟨rfl, rfl⟩]
      exact .ok ⟨[.node m], rfl, rfl, fun i hi => List.mem_singleton.1 hi ▸ List.Subset.refl _⟩

/-- A value of a field becomes trees that are the same when masked, or is refused alike. -/
theorem encodeValue_alike (hg : c.grammar = d.grammar) {kind : FieldKind} {a : Attr Node}
    (hkind : c.fieldKind? f.typeName = some kind) (ih : ∀ m ∈ a.nodes, c.AlikeOn d hole m) :
    EndAlike
      (fun t u => Tree.maskValue hole (LeafKind.isTypeName f.typeName) (.child t) =
        Tree.maskValue hole (LeafKind.isTypeName f.typeName) (.child u))
      (c.encodeValue p f kind (c.encodeAttr a)) (d.encodeValue p f kind (d.encodeAttr a)) := by
  -- Each kind of field takes one sort of value, and refuses any other with its description.
  have hrefuse := fun expected => congrArg (ConvertError.unexpectedValue p.name f.name expected)
    (describeAttr_encodeAttr c d a)
  cases kind with
  | composite =>
    cases a with
    | node m =>
      rw [encodeAttr_node, encodeAttr_node]
      refine (ih m (by simp [Attr.nodes])).imp fun t u h => ?_
      rw [Tree.maskValue, Tree.maskValue, h]
    | none | text s | list items => exact .error_of_eq (hrefuse .node)
  | leaf leaf =>
    cases a with
    | text s =>
      rw [encodeAttr, encodeAttr, encodeValue, encodeValue, encodeLeaf_eq, encodeLeaf_eq]
      -- The two leaves may differ in everything, but both are masked.
      refine .ok ?_
      rw [(fieldKind?_eq_leaf_iff.1 hkind).2, leaf.isTypeName_typeName, Tree.maskValue,
        Tree.maskValue, if_pos rfl, if_pos rfl]
    | none | list items => exact .error_of_eq (hrefuse .text)
    | node m =>
      obtain ⟨kind, attrs⟩ := m
      exact .error_of_eq (hrefuse .text)
  | terminal =>
    cases a with
    | text s =>
      rw [encodeAttr, encodeAttr, encodeValue, encodeValue, hg]
      refine .refl (fun t => ?_) _
      rfl
    | none | list items => exact .error_of_eq (hrefuse .terminal)
    | node m =>
      obtain ⟨kind, attrs⟩ := m
      exact .error_of_eq (hrefuse .terminal)

theorem encodeValues_alike (hg : c.grammar = d.grammar) {kind : FieldKind}
    {items : List (Attr Node)} (hkind : c.fieldKind? f.typeName = some kind)
    (ih : ∀ i ∈ items, ∀ m ∈ i.nodes, c.AlikeOn d hole m) :
    EndAlike (fun vs ws => Tree.maskSlot hole ⟨f, vs⟩ = Tree.maskSlot hole ⟨f, ws⟩)
      (c.encodeValues p f kind (items.map c.encodeAttr))
      (d.encodeValues p f kind (items.map d.encodeAttr)) := by
  induction items with
  | nil => exact .ok rfl
  | cons a items ih' =>
    rw [List.forall_mem_cons] at ih
    rw [List.map_cons, List.map_cons, encodeValues, encodeValues]
    refine .bind (encodeValue_alike hg hkind ih.1) fun t u htu => ?_
    refine .bind (ih' ih.2) fun vs ws hrest => .ok ?_
    rw [Tree.maskSlot, Tree.maskSlot, Slot.mk.injEq] at hrest ⊢
    rw [List.map_cons, List.map_cons, htu, hrest.2]
    exact ⟨rfl, rfl⟩

/-- The encoder looks a value up by the name of the field, among the values of the node. -/
theorem lookup_encodeAttr (c : Converter) (n : Node) (name : String) :
    (n.kind.attrIndex? name).bind ((n.attrs.map c.encodeAttr)[·]?) =
      (n.get? name).map c.encodeAttr := by
  unfold Node.get?
  cases n.kind.attrIndex? name with
  | none => rfl
  | some i => exact List.getElem?_map

/-- A field becomes slots that are the same when masked, or is refused alike. -/
theorem encodeField_alike (hg : c.grammar = d.grammar) {n : Node}
    (ih : ∀ m ∈ n.children, c.AlikeOn d hole m) :
    EndAlike (fun s s' => Tree.maskSlot hole s = Tree.maskSlot hole s')
      (c.encodeField n.kind (n.attrs.map c.encodeAttr) p f)
      (d.encodeField n.kind (n.attrs.map d.encodeAttr) p f) := by
  unfold encodeField
  rw [lookup_encodeAttr, lookup_encodeAttr]
  cases hget : n.get? f.name with
  | none => exact .error _
  | some a =>
    have hmem : a ∈ n.attrs := by
      obtain ⟨i, -, hi⟩ := Option.bind_eq_some_iff.1 hget
      exact List.mem_of_getElem? hi
    have hclassify : c.classify p f = d.classify p f := by
      rw [classify, classify, fieldKind?_eq hg]
    rw [Option.map_some, Option.map_some, ← hclassify]
    cases hkind : c.classify p f with
    | error e => exact .error e
    | ok kind =>
      change EndAlike _ (elements p f (c.encodeAttr a) >>= _) (elements p f (d.encodeAttr a) >>= _)
      refine .bind (elements_alike c d p f a) fun es es' hes => ?_
      obtain ⟨items, rfl, rfl, hnodes⟩ := hes
      refine .bind (encodeValues_alike hg (classify_eq_ok_iff.1 hkind) ?_) fun vs ws h => .ok h
      exact fun i hi m hm => ih m (Node.mem_children.2 ⟨a, hmem, hnodes i hi hm⟩)

/-- Slots that are the same when masked are accepted or refused alike by a production. -/
theorem ofSlots_alike {slots slots' : List (Slot Tree)}
    (h : List.Forall₂ (fun s s' => Tree.maskSlot hole s = Tree.maskSlot hole s') slots slots') :
    EndAlike (fun t u => t.mask hole = u.mask hole) ((Tree.ofSlots p slots).mapError .grammar)
      ((Tree.ofSlots p slots').mapError ConvertError.grammar) := by
  have hmask : slots.map (Tree.maskSlot hole) = slots'.map (Tree.maskSlot hole) := by
    rw [← List.forall₂_eq_eq_eq, List.forall₂_map_left_iff, List.forall₂_map_right_iff]
    exact h
  -- A mask keeps the field of a slot, and the production looks at nothing else.
  have hfields : slots.map Slot.field = slots'.map Slot.field := by
    have := congrArg (List.map Slot.field) hmask
    rw [List.map_map, List.map_map] at this
    exact this
  unfold Tree.ofSlots
  rw [← hfields]
  cases firstDifference? p.fields (slots.map Slot.field) with
  | none =>
    refine .ok ?_
    rw [Tree.mask_eq, Tree.mask_eq, hmask]
  | some difference => exact .error _

/-- **Two encoders over one grammar end alike on every node.** -/
theorem alikeOn (hg : c.grammar = d.grammar) (hole : Value Tree) (n : Node) :
    c.AlikeOn d hole n := by
  -- The induction is along the children, whose encodings are parts of that of the node.
  induction n using Node.inductionOn with
  | step n ih =>
    unfold AlikeOn
    rw [encode_eq, encode_eq, assemble, assemble, ← hg]
    cases c.grammar.production? n.kind.name with
    | none => exact .error _
    | some p =>
      refine .bind ?_ fun slots slots' h => ofSlots_alike h
      rw [encodeFields_eq_mapM, encodeFields_eq_mapM]
      exact .mapM fun f _ => encodeField_alike hg ih

/-- **A model changes leaves only.** Two converters over one grammar, with any models or none, fail
on a node with the same error, or they encode it as two trees that become equal when the children in
all fields of leaf type are replaced by one fixed value. -/
theorem models_change_leaves {g : Grammar} {c d : Converter} (hc : c.grammar = g)
    (hd : d.grammar = g) (hole : Value Tree) (n : Node) :
    (∃ e, c.encode n = .error e ∧ d.encode n = .error e) ∨
      ∃ t u, c.encode n = .ok t ∧ d.encode n = .ok u ∧ t.mask hole = u.mask hole := by
  have h := alikeOn (hc.trans hd.symm) hole n
  unfold AlikeOn at h
  generalize c.encode n = x, d.encode n = y at h
  cases h with
  | error e => exact .inl ⟨e, rfl, rfl⟩
  | ok htu => exact .inr ⟨_, _, rfl, rfl, htu⟩

/-- A model that cuts one name in two. -/
def halves : Subword.Model :=
  .table [("main", ["\u2581ma", "in"])]

/-- A name is encoded as a token leaf without a model and as two pieces with one; the two trees
differ, and are the same when masked. -/
theorem models_change_leaves_name :
    ∃ t u, (Converter.ofC none {}).encode (.id "main") = .ok t ∧
      (Converter.ofC (some halves) {}).encode (.id "main") = .ok u ∧ t ≠ u ∧
      t.mask (.token "") = u.mask (.token "") := by
  have htoken : (Converter.ofC none {}).encode (.id "main") =
      .ok (.ofName ((Converter.ofC none {}).tokenLeaf .ident "main")) := by
    rfl
  have hpieces : (Converter.ofC (some halves) {}).encode (.id "main") =
      .ok (.ofName ((Converter.ofC none {}).subwordLeaf .ident ["\u2581ma", "in"])) := by
    rfl
  refine ⟨_, _, htoken, hpieces, by decide +kernel, ?_⟩
  rcases models_change_leaves (c := .ofC none {}) (d := .ofC (some halves) {}) rfl rfl (.token "")
    (.id "main") with ⟨e, he, -⟩ | ⟨t, u, ht, hu, hmask⟩
  · exact absurd (htoken.symm.trans he) nofun
  · rw [Except.ok.inj (htoken.symm.trans ht), Except.ok.inj (hpieces.symm.trans hu)]
    exact hmask

end Converter

end TypedSyntax
