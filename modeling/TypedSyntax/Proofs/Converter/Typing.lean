import TypedSyntax.Proofs.Converter.Acceptance
import TypedSyntax.Proofs.Converter.RoundTrip
import TypedSyntax.Proofs.Tree.Walk

/-!
# What was encoded is well typed

The encoder fills the slots of a production without comparing the type of a child with that of its
field. Over a plain grammar (`Grammar.Plain`) the types fit all the same: nodes become trees of the
one composite type, texts become leaves of the type of their field, and words become terminals of
the group that the field asks for, whatever model cuts the texts into pieces.

* `Converter.wellTyped_of_encode` — over a plain grammar, every tree that was encoded is well typed
  and has the composite type;
* `Converter.encode_storable` — over the bundled grammar, such a tree is valid and is bound back
  from its table.

The proof goes along the children of the node. At each node the slots are written one by one
(`Converter.encode_eq_ok_iff`), so it is enough that whatever is written for one value has the type
of its field (`Converter.Writes.wellTyped`).
-/

namespace TypedSyntax

namespace Converter

variable {g : Grammar} {c : Converter} {root : String} {f : Field} {kind : FieldKind} {t u : Tree}

/-! ### One value -/

/-- Nothing is below a node that holds texts only. -/
theorem subtrees_of_tokens (p : Production) (f : Field) (tokens : List String) :
    Tree.subtrees ⟨p, [⟨f, tokens.map .token⟩]⟩ = [] := by
  rw [Tree.subtrees, List.flatMap_singleton, Slot.subtrees, List.filterMap_map]
  exact List.filterMap_eq_nil_iff.2 fun _ _ => rfl

/-- A node of a production with one primitive field is well typed at all depths, since nothing is
below it. -/
theorem wellTyped_of_holdsTexts {p : Production} {k : Cardinality} {tokens : List String}
    (hp : p.HoldsTexts g f k) (hcount : k.admits tokens.length = true) :
    Tree.WellTyped g ⟨p, [⟨f, tokens.map .token⟩]⟩ := by
  refine .intro (typedAt_of_holdsTexts hp hcount) fun s hs => ?_
  rw [subtrees_of_tokens] at hs
  exact absurd hs List.not_mem_nil

/-- The leaf for a text is well typed, however the model cuts the text. -/
theorem leafTree_wellTyped (c : Converter) (leaf : LeafKind) (text : String) :
    (c.leafTree leaf text).WellTyped c.grammar := by
  have hfits := c.leaf_fits leaf
  unfold leafTree
  cases c.model with
  | none =>
    have hcount : Cardinality.single.admits [text].length = true := rfl
    exact wellTyped_of_holdsTexts hfits.token hcount
  | some model => exact wellTyped_of_holdsTexts hfits.subword rfl

theorem leafTree_typeName (hp : c.grammar.Plain root) (leaf : LeafKind) (text : String) :
    (c.leafTree leaf text).production.typeName = leaf.typeName := by
  have hfits := c.leaf_fits leaf
  unfold leafTree
  cases c.model with
  | none => exact (hp.leaf _ hfits.token.mem leaf).2 (Or.inl hfits.token_name)
  | some model => exact (hp.leaf _ hfits.subword.mem leaf).2 (Or.inr hfits.subword_name)

/-- A production without fields has a well-typed tree. -/
theorem ofProduction_wellTyped {p : Production} (hp : p ∈ g.productions) (hf : p.fields = []) :
    (Tree.ofProduction p).WellTyped g := by
  have hslots : (Tree.ofProduction p).slots = [] := by
    rw [Tree.ofProduction, hf, List.map_nil]
  refine Tree.all_of_slots_eq_nil ⟨⟨hp, ?_⟩, ?_, ?_⟩ hslots
  · rw [hslots, List.map_nil]
    exact hf.symm
  · rw [hslots]
    exact fun s hs => absurd hs List.not_mem_nil
  · rw [hslots]
    exact fun s hs => absurd hs List.not_mem_nil

/-- Over a plain grammar, the tree that is written for a value is well typed and has the type of the
field. -/
theorem Writes.wellTyped (hp : c.grammar.Plain root) {a : Attr Node}
    (hkind : c.fieldKind? f.typeName = some kind)
    (ih : ∀ m ∈ a.nodes, ∀ t, c.encode m = .ok t →
      t.WellTyped c.grammar ∧ t.production.typeName = root)
    (h : c.Writes f kind a (.child u)) :
    u.WellTyped c.grammar ∧ u.production.typeName = f.typeName := by
  cases h with
  | @composite n _ h =>
    -- There is only one composite type.
    obtain ⟨hwell, htype⟩ := ih n (by simp [Attr.nodes]) u h
    refine ⟨hwell, htype.trans ?_⟩
    exact ((hp.composite _).1 (fieldKind?_eq_composite_iff.1 hkind)).symm
  | leaf leaf text =>
    refine ⟨leafTree_wellTyped c leaf text, ?_⟩
    rw [leafTree_typeName hp, (fieldKind?_eq_leaf_iff.1 hkind).2]
  | @terminal text constructor q h hq hname =>
    -- The constructor stands in the group of the field, so it has a spelling there.
    have hspelled := Terminal.token?_of_constructor? h
    rw [← hname] at hspelled
    obtain ⟨htype, hfields⟩ := hp.of_token? hq hspelled
    exact ⟨ofProduction_wellTyped hq hfields, htype⟩

/-! ### One slot -/

/-- What is written for a value is a tree. -/
theorem Writes.exists_child {a : Attr Node} {v : Value Tree} (h : c.Writes f kind a v) :
    ∃ u, v = .child u := by
  cases h <;> exact ⟨_, rfl⟩

/-- A slot that is written holds as many values as its cardinality admits. -/
theorem WritesSlot.count {a : Attr Node} {s : Slot Tree} (h : c.WritesSlot a s) :
    s.field.cardinality.admits s.values.length = true := by
  obtain ⟨_, items, -, hholds, hwrites⟩ := h
  rw [← hwrites.length_eq]
  exact exists_holds_iff.1 ⟨a, hholds⟩

/-- Over a plain grammar, every value of a slot that is written is a well-typed tree of the type of
the field. -/
theorem WritesSlot.wellTyped (hp : c.grammar.Plain root) {a : Attr Node} {s : Slot Tree}
    (ih : ∀ m ∈ a.nodes, ∀ t, c.encode m = .ok t →
      t.WellTyped c.grammar ∧ t.production.typeName = root)
    (h : c.WritesSlot a s) {v : Value Tree} (hv : v ∈ s.values) :
    ∃ u, v = .child u ∧ u.WellTyped c.grammar ∧ v.HasType c.grammar s.field.typeName := by
  obtain ⟨kind, items, hkind, hholds, hwrites⟩ := h
  obtain ⟨i, hi, hwrite⟩ := forall₂_exists_left hwrites hv
  obtain ⟨u, rfl⟩ := hwrite.exists_child
  have hnodes := (hholds.subset hi).1
  obtain ⟨hwell, htype⟩ := hwrite.wellTyped hp hkind fun m hm => ih m (hnodes hm)
  -- A field whose values are converted has a sum type, so it may hold trees.
  have hsum := exists_fieldKind?_iff.1 ⟨kind, hkind⟩
  exact ⟨u, rfl, hwell, Grammar.not_isPrimitive_of_isSum hsum, htype⟩

/-! ### Whole nodes -/

/-- **Over a plain grammar, what was encoded is well typed.** -/
theorem wellTyped_of_encode (hp : g.Plain root) (hg : c.grammar = g) {n : Node}
    (hn : n.WellShaped) (h : c.encode n = .ok t) :
    t.WellTyped g ∧ t.production.typeName = root := by
  subst hg
  induction hn generalizing t with
  | @intro n here _ ih =>
    -- The production of the kind agrees with it, so encoding went field by field.
    obtain ⟨p, hproduction⟩ := exists_production_of_encode h
    have ha := Grammar.agrees_of_production? hp.verify hp.ofName?_leaf hproduction
    obtain ⟨hmem, hname⟩ := Grammar.production?_eq_some_iff.1 hproduction
    obtain ⟨rfl, hfields, hslots⟩ := (encode_eq_ok_iff hproduction ha here).1 h
    have hwrites : ∀ s ∈ t.slots, ∃ a ∈ n.attrs, c.WritesSlot a s :=
      fun s hs => forall₂_exists_left hslots hs
    have hvalues : ∀ s ∈ t.slots, ∀ v ∈ s.values, ∃ u, v = .child u ∧
        u.WellTyped c.grammar ∧ v.HasType c.grammar s.field.typeName := by
      intro s hs v hv
      obtain ⟨a, ha, hslot⟩ := hwrites s hs
      exact hslot.wellTyped hp (fun m hm t => ih m (Node.mem_children.2 ⟨a, ha, hm⟩)) hv
    refine ⟨.intro ⟨⟨hmem, hfields⟩, fun s hs => ?_, fun s hs v hv => ?_⟩ fun u hu => ?_, ?_⟩
    · obtain ⟨_, -, hslot⟩ := hwrites s hs
      exact hslot.count
    · obtain ⟨_, -, -, htype⟩ := hvalues s hs v hv
      exact htype
    · obtain ⟨s, hs, hv⟩ := Tree.mem_subtrees.1 hu
      obtain ⟨_, heq, hwell, -⟩ := hvalues s hs _ hv
      rw [Value.child.inj heq]
      exact hwell
    · -- The production is named like a kind, so its type is the composite one.
      have hk : Kind.ofName? t.production.name = some n.kind := by
        rw [hname, Kind.ofName?_name]
      exact (hp.composite _).1 (hp.isComposite hmem hk)

/-- **What is encoded over the bundled grammar can be stored.** Whatever model cuts the texts, the
tree of a node is valid, its root is an `EXPR`, and it is bound back from its table. -/
theorem encode_storable (hg : cGrammar = .ok g) (hc : c.grammar = g) {n : Node} (hn : n.Built)
    (h : c.encode n = .ok t) :
    t.validate = .ok () ∧ t.production ∈ g.productions ∧ t.production.typeName = "EXPR" ∧
      Tree.ofTable g t.toTable = .ok t := by
  obtain ⟨hwell, htype⟩ := wellTyped_of_encode (cGrammar_plain hg) hc hn.wellShaped h
  exact ⟨hwell.validate, hwell.here.mem, htype, Tree.ofTable_toTable hwell⟩

/-- A model that makes three pieces of every text, one of them empty. -/
def noisy : Subword.Model :=
  fun text => ["", text, "\u2581"]

/-- A call with two arguments. -/
def call : Node :=
  .funcCall (.id "f") (some (.exprList [.id "x", .constant "long int" "1"]))

/-- The call is encoded, by a model whose pieces do not spell the texts, as a tree that can be
stored. -/
theorem encode_storable_call :
    ∃ t, (Converter.ofC (some noisy) {}).encode call = .ok t ∧ t.validate = .ok () ∧
      Tree.ofTable .ofC t.toTable = .ok t := by
  have hbuilt : call.Built := by
    refine .funcCall (.id _) fun m hm => ?_
    obtain rfl := Option.mem_some_iff.1 hm
    refine .exprList fun m hm => ?_
    rcases List.mem_cons.1 hm with rfl | hm
    · exact .id _
    · rw [List.mem_singleton.1 hm]
      exact .constant _ _
  have hok : ((Converter.ofC (some noisy) {}).encode call).isOk := by decide +kernel
  cases h : (Converter.ofC (some noisy) {}).encode call with
  | error e => rw [h] at hok; exact absurd hok nofun
  | ok t =>
    obtain ⟨hvalid, -, -, hstored⟩ := encode_storable cGrammar_eq rfl hbuilt h
    exact ⟨t, rfl, hvalid, hstored⟩

end Converter

end TypedSyntax
