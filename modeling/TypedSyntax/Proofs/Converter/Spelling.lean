import TypedSyntax.Proofs.Converter.RoundTrip

/-!
# What encoding forgets

Several spellings of a literal type share a constructor, so two nodes that differ only there have
the same tree. Without a model this is all that encoding forgets: two nodes have the same tree
exactly if they have the same canonical form.

* `Converter.forgetsSpelling` — over every grammar that passes the checks, for the canonical form
  that the grammar gives (`Node.canonical`);
* `Converter.encoding_forgets_spelling` — over the bundled grammar, where the types of constants are
  the only literal types (`Node.respelled`).

Nothing is decoded here. Encoding goes field by field (`Converter.encode_eq_ok_iff`), so the two
runs are compared value by value, and what is carried up through values, slots and nodes is the
equivalence itself: the results are equal if and only if the canonical forms are. That settles both
directions in one induction along the children of the first node.
-/

namespace TypedSyntax

/-! ### One value -/

namespace Converter

variable {g : Grammar} {c : Converter} {f : Field} {kind : FieldKind} {literal : Bool}

/-- Two nodes that are encoded have the same tree exactly if they have the same canonical form. -/
def ForgetsSpelling (c : Converter) (g : Grammar) (m n : Node) : Prop :=
  ∀ t u, c.encode m = .ok t → c.encode n = .ok u → (t = u ↔ m.canonical g = n.canonical g)

/-- Without a model, the leaf for a text tells the text. -/
theorem leafTree_inj (hmodel : c.model = none) {leaf : LeafKind} {s s' : String} :
    c.leafTree leaf s = c.leafTree leaf s' ↔ s = s' := by
  refine ⟨fun h => ?_, fun h => by rw [h]⟩
  unfold leafTree at h
  rw [hmodel] at h
  -- Both leaves are the same but for the one text that they hold.
  have hslots := (Tree.mk.inj h).2
  have hvalues := (Slot.mk.inj (List.cons.inj hslots).1).2
  exact Value.token.inj (List.cons.inj hvalues).1

/-- The trees of two productions without values are equal exactly if the constructors are. -/
theorem ofProduction_inj {p q : Production} (hp : p ∈ g.productions) (hq : q ∈ g.productions) :
    Tree.ofProduction p = Tree.ofProduction q ↔ p.name = q.name := by
  refine ⟨fun h => ?_, fun h => by rw [Grammar.production_ext hp hq h]⟩
  rw [(Tree.mk.inj h).1]

/-- Two values of a field are written alike exactly if they have the same canonical form. -/
theorem Writes.eq_iff (hmodel : c.model = none) {a b : Attr Node} {v w : Value Tree}
    (hliteral : literal = (f.typeName == Terminal.literalType))
    (hkind : c.fieldKind? f.typeName = some kind)
    (ih : ∀ m ∈ a.nodes, ∀ n ∈ b.nodes, c.ForgetsSpelling g m n)
    (ha : c.Writes f kind a v) (hb : c.Writes f kind b w) :
    v = w ↔ Node.canonicalAttr g literal a = Node.canonicalAttr g literal b := by
  cases ha with
  | @composite m t hm =>
    cases hb with
    | @composite n u hn =>
      have h := ih m (by simp [Attr.nodes]) n (by simp [Attr.nodes]) t u hm hn
      rw [Node.canonicalAttr_node, Node.canonicalAttr_node, Value.child.injEq, Attr.node.injEq, h]
  | leaf leaf s =>
    cases hb with
    | leaf _ s' =>
      -- The texts of a leaf type are their own canonical forms.
      have hne : f.typeName ≠ Terminal.literalType :=
        (fieldKind?_eq_leaf_iff.1 hkind).2 ▸ leaf.typeName_ne_literalType
      rw [Node.canonicalAttr_text g hliteral, Node.canonicalAttr_text g hliteral,
        Terminal.canonical_eq_self s hne, Terminal.canonical_eq_self s' hne, Value.child.injEq,
        Attr.text.injEq, leafTree_inj hmodel]
  | @terminal s constructor p h hp hname =>
    cases hb with
    | @terminal s' constructor' q h' hq hname' =>
      rw [Node.canonicalAttr_text g hliteral, Node.canonicalAttr_text g hliteral,
        Value.child.injEq, Attr.text.injEq, ofProduction_inj hp hq, hname, hname']
      exact Terminal.constructor_eq_iff h h'

end Converter

/-! ### One slot -/

/-- A value in canonical form is missing only if the value is. -/
theorem Node.canonicalAttr_isNone (g : Grammar) (literal : Bool) (a : Attr Node) :
    (Node.canonicalAttr g literal a).isNone = a.isNone := by
  cases a with
  | none => rw [Node.canonicalAttr]
  | text s | list items =>
    rw [Node.canonicalAttr]
    rfl
  | node n =>
    rw [Node.canonicalAttr_node]
    rfl

/-- Values have the same canonical forms exactly if what they make up has, provided that none of
them is missing. -/
theorem Cardinality.Holds.canonical_eq_iff {k : Cardinality} {items items' : List (Attr Node)}
    {a b : Attr Node} (g : Grammar) (literal : Bool) (ha : k.Holds items a)
    (hb : k.Holds items' b) (hitems : ∀ i ∈ items, i.isNone = false)
    (hitems' : ∀ i ∈ items', i.isNone = false) :
    items.map (Node.canonicalAttr g literal) = items'.map (Node.canonicalAttr g literal) ↔
      Node.canonicalAttr g literal a = Node.canonicalAttr g literal b := by
  cases k with
  | single =>
    obtain rfl : items = [a] := ha
    obtain rfl : items' = [b] := hb
    simp
  | multiple =>
    obtain rfl : a = .list items := ha
    obtain rfl : b = .list items' := hb
    rw [Node.canonicalAttr, Node.canonicalAttr, Node.canonicalItems_eq_map,
      Node.canonicalItems_eq_map, Attr.list.injEq]
  | optional =>
    -- A missing value and a value that is there are told apart by `isNone`.
    have hapart : ∀ i : Attr Node, i.isNone = false →
        Node.canonicalAttr g literal i ≠ Node.canonicalAttr g literal .none := by
      intro i hi heq
      have hnone := congrArg Attr.isNone heq
      rw [Node.canonicalAttr_isNone, Node.canonicalAttr_isNone, hi] at hnone
      exact Bool.false_ne_true hnone
    rcases ha with ⟨rfl, rfl⟩ | rfl
    · rcases hb with ⟨rfl, rfl⟩ | rfl
      · simp
      · have hne := hapart b (hitems' b List.mem_cons_self)
        simpa using hne.symm
    · rcases hb with ⟨rfl, rfl⟩ | rfl
      · have hne := hapart a (hitems a List.mem_cons_self)
        simpa using hne
      · simp

namespace Converter

variable {g : Grammar} {c : Converter}

/-- Two values of one field have the same slot exactly if they have the same canonical form. -/
theorem WritesSlot.eq_iff (hmodel : c.model = none) {literal : Bool} {a b : Attr Node}
    {s s' : Slot Tree} (hfield : s.field = s'.field)
    (hliteral : literal = (s.field.typeName == Terminal.literalType))
    (ih : ∀ m ∈ a.nodes, ∀ n ∈ b.nodes, c.ForgetsSpelling g m n)
    (ha : c.WritesSlot a s) (hb : c.WritesSlot b s') :
    s = s' ↔ Node.canonicalAttr g literal a = Node.canonicalAttr g literal b := by
  obtain ⟨f, vs⟩ := s
  obtain ⟨f', ws⟩ := s'
  obtain rfl : f = f' := hfield
  obtain ⟨kind, items, hkind, hholds, hwrites⟩ := ha
  obtain ⟨kind', items', hkind', hholds', hwrites'⟩ := hb
  obtain rfl : kind = kind' := Option.some.inj (hkind.symm.trans hkind')
  have there : ∀ {items vs}, List.Forall₂ (c.Writes f kind) items vs →
      ∀ i ∈ items, i.isNone = false := by
    intro items vs hwrites i hi
    obtain ⟨v, -, hv⟩ := forall₂_exists_right hwrites hi
    exact hv.scalar.1
  calc Slot.mk f vs = ⟨f, ws⟩
      ↔ vs = ws := by rw [Slot.mk.injEq, and_iff_right rfl]
    _ ↔ items.map (Node.canonicalAttr g literal) = items'.map (Node.canonicalAttr g literal) :=
        forall₂_eq_iff hwrites hwrites' fun i hi i' hi' v w hv hw =>
          hv.eq_iff hmodel hliteral hkind
            (fun m hm n hn => ih m ((hholds.subset hi).1 hm) n ((hholds'.subset hi').1 hn)) hw
    _ ↔ Node.canonicalAttr g literal a = Node.canonicalAttr g literal b :=
        hholds.canonical_eq_iff g literal hholds' (there hwrites) (there hwrites')

/-! ### One node -/

/-- Values of declared attributes have the same slots exactly if they have the same canonical
forms. -/
theorem writesSlots_eq_iff (hmodel : c.model = none) {kind : Kind} {fs : List Field}
    {specs : List AttrSpec} {as bs : List (Attr Node)} {ss ss' : List (Slot Tree)}
    (hliteral : List.Forall₂
      (fun f spec => Node.isLiteral g kind spec.name = (f.typeName == Terminal.literalType))
      fs specs)
    (hfields : ss.map Slot.field = fs) (hfields' : ss'.map Slot.field = fs)
    (ih : ∀ a ∈ as, ∀ b ∈ bs, ∀ m ∈ a.nodes, ∀ n ∈ b.nodes, c.ForgetsSpelling g m n)
    (ha : List.Forall₂ c.WritesSlot as ss) (hb : List.Forall₂ c.WritesSlot bs ss') :
    ss = ss' ↔ Node.canonicalAttrs g kind specs as = Node.canonicalAttrs g kind specs bs := by
  -- Fields, attributes, values and slots stand side by side in six lists of one length.
  induction hliteral generalizing as bs ss ss' with
  | nil =>
    obtain rfl := List.map_eq_nil_iff.1 hfields
    obtain rfl := List.map_eq_nil_iff.1 hfields'
    obtain rfl := List.forall₂_nil_right_iff.1 ha
    obtain rfl := List.forall₂_nil_right_iff.1 hb
    exact ⟨fun _ => rfl, fun _ => rfl⟩
  | cons hl _ ihs =>
    obtain ⟨s, ss, rfl, rfl, hrest⟩ := List.map_eq_cons_iff.1 hfields
    obtain ⟨s', ss', rfl, hfield, hrest'⟩ := List.map_eq_cons_iff.1 hfields'
    obtain ⟨a, as, hs, hss, rfl⟩ := List.forall₂_cons_right_iff.1 ha
    obtain ⟨b, bs, hs', hss', rfl⟩ := List.forall₂_cons_right_iff.1 hb
    have hhead := hs.eq_iff hmodel hfield.symm hl (ih a List.mem_cons_self b List.mem_cons_self) hs'
    have htail := ihs hrest hrest'
      (fun a ha b hb => ih a (List.mem_cons_of_mem _ ha) b (List.mem_cons_of_mem _ hb)) hss hss'
    rw [Node.canonicalAttrs, Node.canonicalAttrs, List.cons.injEq, List.cons.injEq, hhead, htail]

/-- The type of a field is the literal type exactly if the texts of its attribute name literal
types. -/
theorem isLiteral_of_agrees {kind : Kind} {p : Production}
    (hp : g.production? kind.name = some p)
    (hpa : List.Forall₂ Field.Agrees p.fields kind.attrs) :
    List.Forall₂
      (fun f spec => Node.isLiteral g kind spec.name = (f.typeName == Terminal.literalType))
      p.fields kind.attrs := by
  refine (forall₂_flip_mem hpa).flip.imp fun f spec h => ?_
  rw [Node.isLiteral, attrType?_of_agrees hp h.1 h.2]
  rfl

/-- **Over every grammar that passes the checks, encoding forgets spelling only.** -/
theorem forgetsSpelling (hv : g.verify = .ok ())
    (hleaf : ∀ p ∈ g.productions, ∀ leaf : LeafKind, p.typeName = leaf.typeName →
      Kind.ofName? p.name = none)
    (hc : c.grammar = g) (hmodel : c.model = none) {m n : Node} (hm : m.WellShaped)
    (hn : n.WellShaped) : c.ForgetsSpelling g m n := by
  subst hc
  -- The second node is free in the induction, since the children of both are compared in pairs.
  induction hm generalizing n with
  | @intro m here _ ih =>
    intro t u ht hu
    obtain ⟨p, hp⟩ := exists_production_of_encode ht
    obtain ⟨q, hq⟩ := exists_production_of_encode hu
    have hpa := Grammar.agrees_of_production? hv hleaf hp
    have hqa := Grammar.agrees_of_production? hv hleaf hq
    obtain ⟨rfl, hfields, hslots⟩ := (encode_eq_ok_iff hp hpa here).1 ht
    obtain ⟨rfl, hfields', hslots'⟩ := (encode_eq_ok_iff hq hqa hn.here).1 hu
    by_cases hkind : m.kind = n.kind
    · obtain ⟨k, as⟩ := m
      obtain ⟨k', bs⟩ := n
      obtain rfl : k = k' := hkind
      -- One kind has one production, so the trees are told apart by their slots.
      have hpq : t.production = u.production := Option.some.inj (hp.symm.trans hq)
      have hsame : t = u ↔ t.slots = u.slots := by
        obtain ⟨p, ss⟩ := t
        obtain ⟨q, ss'⟩ := u
        obtain rfl : p = q := hpq
        rw [Tree.mk.injEq, and_iff_right rfl]
      rw [hsame, Node.canonical_eq, Node.canonical_eq, Node.mk.injEq, and_iff_right rfl]
      refine writesSlots_eq_iff hmodel (isLiteral_of_agrees hp hpa) hfields (hpq ▸ hfields')
        (fun a ha b hb m' hm' n' hn' => ?_) hslots hslots'
      exact ih m' (Node.mem_children.2 ⟨a, ha, hm'⟩)
        (hn.deeper n' (Node.mem_children.2 ⟨b, hb, hn'⟩))
    · -- Nodes of different kinds differ in the name of the root, and in the kind of the canonical
      -- form.
      refine iff_of_false (fun h => hkind ?_) (fun h => hkind ?_)
      · have hname := (Grammar.production?_eq_some_iff.1 hp).2
        rw [h, (Grammar.production?_eq_some_iff.1 hq).2] at hname
        exact (Kind.name_injective hname).symm
      · rw [Node.canonical_eq, Node.canonical_eq] at h
        exact (Node.mk.inj h).1

end Converter

/-! ### The types of constants -/

namespace Node

/-- The values of a node, if it is a constant with its type in the canonical spelling. -/
def respellType : Kind → List (Attr Node) → List (Attr Node)
  | .constant, .text type :: attrs =>
    .text (Terminal.canonical Terminal.literalType type) :: attrs
  | _, attrs => attrs

mutual

/-- The node with the type of every constant, at any depth, in its canonical spelling. -/
def respelled : Node → Node
  | ⟨kind, attrs⟩ => ⟨kind, respellType kind (respelledAttrs attrs)⟩

/-- A list of values with the constants in them respelled. -/
def respelledAttrs : List (Attr Node) → List (Attr Node)
  | [] => []
  | a :: as => respelledAttr a :: respelledAttrs as

/-- A value with the constants in it respelled. -/
def respelledAttr : Attr Node → Attr Node
  | .none => .none
  | .text s => .text s
  | .node ⟨kind, attrs⟩ => .node (respelled ⟨kind, attrs⟩)
  | .list items => .list (respelledAttrs items)

end

theorem respelledAttr_node (n : Node) : respelledAttr (.node n) = .node n.respelled := by
  obtain ⟨kind, attrs⟩ := n
  rw [respelledAttr]

variable {g : Grammar}

mutual

/-- Outside the literal types, a value is in canonical form once its nodes are. -/
theorem canonicalAttr_eq_respelledAttr : ∀ a : Attr Node,
    (∀ m ∈ a.nodes, m.canonical g = m.respelled) → canonicalAttr g false a = respelledAttr a
  | .none, _ => by rw [canonicalAttr, respelledAttr]
  | .text s, _ => by rw [canonicalAttr, respelledAttr, if_neg Bool.false_ne_true]
  | .node n, h => by
    rw [canonicalAttr_node, respelledAttr_node, h n (by simp [Attr.nodes])]
  | .list items, h => by
    rw [Attr.nodes] at h
    rw [canonicalAttr, respelledAttr, canonicalItems_eq_respelledAttrs items h]

theorem canonicalItems_eq_respelledAttrs : ∀ as : List (Attr Node),
    (∀ m ∈ Attr.nodesOfList as, m.canonical g = m.respelled) →
      canonicalItems g false as = respelledAttrs as
  | [], _ => by rw [canonicalItems, respelledAttrs]
  | a :: as, h => by
    rw [Attr.nodesOfList, List.forall_mem_append] at h
    rw [canonicalItems, respelledAttrs, canonicalAttr_eq_respelledAttr a h.1,
      canonicalItems_eq_respelledAttrs as h.2]

end

/-- Values of attributes that are not of the literal type are brought into canonical form as the
items of a list are. -/
theorem canonicalAttrs_eq_items {kind : Kind} {specs : List AttrSpec} {as : List (Attr Node)}
    (hlen : specs.length = as.length)
    (hliteral : ∀ spec ∈ specs, isLiteral g kind spec.name = false) :
    canonicalAttrs g kind specs as = canonicalItems g false as := by
  induction specs generalizing as with
  | nil =>
    obtain rfl := List.length_eq_zero_iff.1 hlen.symm
    rw [canonicalAttrs, canonicalItems]
  | cons spec specs ih =>
    rw [List.forall_mem_cons] at hliteral
    obtain _ | ⟨a, as⟩ := as
    · exact absurd hlen (Nat.succ_ne_zero _)
    · rw [canonicalAttrs, canonicalItems, hliteral.1, ih (Nat.succ.inj hlen) hliteral.2]

/-- In the bundled grammar only the types of constants are literal types. -/
theorem isLiteral_ofC (kind : Kind) : ∀ spec ∈ kind.attrs,
    isLiteral .ofC kind spec.name = decide (kind = .constant ∧ spec.name = "type") := by
  have h : ∀ k ∈ Kind.all, ∀ spec ∈ k.attrs,
      isLiteral .ofC k spec.name = decide (k = .constant ∧ spec.name = "type") := by
    decide +kernel
  exact h kind (Kind.mem_all kind)

/-- Only constants have a type to respell. -/
theorem respellType_of_ne {kind : Kind} (h : kind ≠ .constant) (attrs : List (Attr Node)) :
    respellType kind attrs = attrs := by
  unfold respellType
  split
  · exact absurd rfl h
  · rfl

/-- The type of a constant is brought into canonical form by respelling it. -/
theorem canonicalAttrs_constant {a b : Attr Node} (ha : a.HasShape (.single "type"))
    (ih : ∀ m ∈ Attr.nodesOfList [a, b], m.canonical .ofC = m.respelled) :
    canonicalAttrs .ofC .constant [.single "type", .single "value"] [a, b] =
      respellType .constant (respelledAttrs [a, b]) := by
  have htype : isLiteral .ofC .constant "type" = true :=
    isLiteral_ofC .constant (.single "type") List.mem_cons_self
  have hvalue : isLiteral .ofC .constant "value" = false :=
    isLiteral_ofC .constant (.single "value") (List.mem_cons_of_mem _ List.mem_cons_self)
  have hb : canonicalAttr .ofC false b = respelledAttr b := by
    refine canonicalAttr_eq_respelledAttr b fun m hm => ih m ?_
    exact Attr.mem_nodesOfList.2 ⟨b, List.mem_cons_of_mem _ List.mem_cons_self, hm⟩
  rw [canonicalAttrs, canonicalAttrs, canonicalAttrs]
  simp only [AttrSpec.single, htype, hvalue, hb, respelledAttrs]
  -- A type that is not a text has no spelling, and a list does not fit the attribute.
  cases a with
  | none =>
    rw [canonicalAttr, respelledAttr]
    rfl
  | text s => rw [canonicalAttr, respelledAttr, respellType, if_pos rfl]
  | node m =>
    have hm := ih m (Attr.mem_nodesOfList.2 ⟨_, List.mem_cons_self, by simp [Attr.nodes]⟩)
    rw [canonicalAttr_node, respelledAttr_node, hm]
    rfl
  | list items => exact absurd (Eq.symm ha) Bool.false_ne_true

/-- **Over the bundled grammar, a node is in canonical form once its constants are respelled.** -/
theorem canonical_ofC {n : Node} (hn : n.WellShaped) : n.canonical .ofC = n.respelled := by
  induction hn with
  | @intro n here _ ih =>
    obtain ⟨kind, attrs⟩ := n
    rw [canonical, respelled, Node.mk.injEq, and_iff_right rfl]
    by_cases hkind : kind = .constant
    · subst hkind
      obtain ⟨a, as, hlist, hrest, rfl⟩ := List.forall₂_cons_left_iff.1 here
      obtain ⟨b, bs, -, hnil, rfl⟩ := List.forall₂_cons_left_iff.1 hrest
      obtain rfl := List.forall₂_nil_left_iff.1 hnil
      exact canonicalAttrs_constant hlist ih
    · -- No attribute is literal, and nothing is respelled at the node itself.
      rw [canonicalAttrs_eq_items here.length_eq fun spec hspec => ?_,
        canonicalItems_eq_respelledAttrs attrs ih, respellType_of_ne hkind]
      rw [isLiteral_ofC kind spec hspec]
      exact decide_eq_false fun h => hkind h.1

end Node

namespace Converter

/-- **Over the bundled grammar, encoding forgets the spelling of literal types only.** Without a
model, two nodes that are encoded have the same tree exactly if they are equal once the type of
every constant in them is in its canonical spelling. -/
theorem encoding_forgets_spelling {g : Grammar} {c : Converter} (hg : cGrammar = .ok g)
    (hc : c.grammar = g) (hmodel : c.model = none) {n₁ n₂ : Node} (h₁ : n₁.Built)
    (h₂ : n₂.Built) {t₁ t₂ : Tree} (e₁ : c.encode n₁ = .ok t₁) (e₂ : c.encode n₂ = .ok t₂) :
    t₁ = t₂ ↔ n₁.respelled = n₂.respelled := by
  obtain rfl : Grammar.ofC = g := Except.ok.inj (cGrammar_eq.symm.trans hg)
  have hplain := cGrammar_plain hg
  have hforgets := forgetsSpelling hplain.verify hplain.ofName?_leaf hc hmodel h₁.wellShaped
    h₂.wellShaped
  rw [hforgets t₁ t₂ e₁ e₂, Node.canonical_ofC h₁.wellShaped, Node.canonical_ofC h₂.wellShaped]

/-- A returned negation of a number, with a word for the type of the number. -/
def negated (type : String) : Node :=
  .returnStmt (some (.unaryOp "-" (.constant type "1")))

/-- The types of integers are forgotten below a statement and an operation; that a number is no
integer is kept. -/
theorem encoding_forgets_spelling_negated :
    ∃ t u, (Converter.ofC none {}).encode (negated "long int") = .ok t ∧
      (Converter.ofC none {}).encode (negated "unsigned int") = .ok t ∧
      (Converter.ofC none {}).encode (negated "float") = .ok u ∧ t ≠ u := by
  have hbuilt : ∀ type, (negated type).Built := by
    intro type
    refine .returnStmt fun m hm => ?_
    obtain rfl := Option.mem_some_iff.1 hm
    exact .unaryOp _ (.constant _ _)
  have hok : ∀ type ∈ ["long int", "unsigned int", "float"],
      ((Converter.ofC none {}).encode (negated type)).isOk := by
    decide +kernel
  obtain ⟨t, ht⟩ := exists_ok_of_isOk (hok "long int" (by decide))
  obtain ⟨t', ht'⟩ := exists_ok_of_isOk (hok "unsigned int" (by decide))
  obtain ⟨u, hu⟩ := exists_ok_of_isOk (hok "float" (by decide))
  have hsame : t = t' := (encoding_forgets_spelling cGrammar_eq rfl rfl (hbuilt _) (hbuilt _)
    ht ht').2 (by decide +kernel)
  have hother : t ≠ u := mt (encoding_forgets_spelling cGrammar_eq rfl rfl (hbuilt _) (hbuilt _)
    ht hu).1 (by decide +kernel)
  exact ⟨t, u, ht, hsame ▸ ht', hu, hother⟩

end Converter

end TypedSyntax
