import TypedSyntax.Proofs.Converter.RoundTrip
import TypedSyntax.Proofs.Node.Built

/-!
# Which conversions fail, and with what

Conversion can report that the grammar, the kinds of node and the groups of terminals do not fit
each other. Over a grammar in which they do fit, nothing of the kind is ever reported, whatever is
converted: the errors of the encoder are about a value of the node (`ConvertError.blamesNode`), and
those of the decoder about a node of the tree (`ConvertError.blamesTree`).

Both proofs follow the conversion from the inside out, with one lemma for each function, and carry
`FailsOnly` through it. Two steps cannot be treated by themselves. Putting a tree together from its
slots, and a node from its attributes, succeeds only for what comes out of the step before; there
`Converter.encodeFields_eq_ok_iff` and `Converter.decodeSlots_eq_ok_iff` say what that is.

* `Converter.encode_failsOnly`, `Converter.decode_failsOnly` — over plain grammars, full ones for
  encoding;
* `Converter.failures_blame_input` — over the bundled grammar.
-/

namespace TypedSyntax

namespace ConvertError

/-- Whether an error says that a node lacks a value, has a word that is no terminal, or has a value
that is not a node, a text or a terminal where one is needed. -/
def blamesNode : ConvertError → Bool
  | missingRequiredField .. | unknownTerminal .. => true
  | unexpectedValue _ _ .node _ | unexpectedValue _ _ .text _ | unexpectedValue _ _ .terminal _ =>
    true
  | _ => false

/-- Whether an error says that a constructor is no kind of node or no terminal of its group, or that
a field of a tree holds a wrong value or a wrong number of them. -/
def blamesTree : ConvertError → Bool
  | unknownProduction _ | unknownConstructor .. | unexpectedValue .. | cardinality .. => true
  | _ => false

end ConvertError

namespace Converter

variable {c : Converter} {p : Production} {f : Field} {root : String}

/-! ### Encoding -/

/-- Taking values from an attribute of the right shape fails only if a value is missing. -/
theorem elements_failsOnly {a : Attr Node}
    (hshape : f.cardinality = .multiple ↔ a.list?.isSome = true) :
    FailsOnly (·.blamesNode = true) (elements p f (c.encodeAttr a)) := by
  cases a with
  | none =>
    rw [encodeAttr]
    cases hk : f.cardinality with
    | single =>
      simp only [elements, hk]
      exact .error rfl
    | optional =>
      simp only [elements, hk]
      exact .ok _
    | multiple => exact absurd (hshape.1 hk) Bool.false_ne_true
  -- The two complaints about shapes are ruled out: a list stands in a field of multiple values,
  -- and anything else does not.
  | list items =>
    have hk : f.cardinality = .multiple := hshape.2 rfl
    rw [encodeAttr_list]
    simp only [elements, hk]
    exact .ok _
  | text _ | node _ =>
    have hk : f.cardinality ≠ .multiple := fun hk => absurd (hshape.1 hk) Bool.false_ne_true
    rw [elements_scalar hk ⟨rfl, rfl⟩]
    exact .ok _

theorem encodeTerminal_failsOnly (typeName word : String) :
    FailsOnly (·.blamesNode = true) (encodeTerminal typeName word) := by
  unfold encodeTerminal
  cases Terminal.constructor? typeName word with
  | none => exact .error rfl
  | some constructor => exact .ok constructor

/-- A value is refused if it is not of the sort that the field takes. -/
theorem encodeValue_failsOnly (hfull : c.grammar.Full) {kind : FieldKind} {a : Attr Node}
    (ih : ∀ m ∈ a.nodes, FailsOnly (·.blamesNode = true) (c.encode m)) :
    FailsOnly (·.blamesNode = true) (c.encodeValue p f kind (c.encodeAttr a)) := by
  cases kind with
  | composite =>
    cases a with
    | node m =>
      rw [encodeAttr_node]
      exact ih m (by simp [Attr.nodes])
    | none | text s | list items => exact .error rfl
  | leaf leaf =>
    cases a with
    | text s =>
      rw [encodeAttr, encodeValue, encodeLeaf_eq]
      exact .ok _
    | none | list items => exact .error rfl
    | node m =>
      rw [encodeAttr_node]
      exact .error rfl
  | terminal =>
    cases a with
    | text s =>
      rw [encodeAttr, encodeValue]
      refine .bind (encodeTerminal_failsOnly f.typeName s) fun constructor hc => ?_
      -- A word that has a constructor stands in a table, so a full grammar has a production for it.
      obtain ⟨group, hgroup, -, he⟩ := Terminal.mem_of_constructor? (encodeTerminal_eq_ok_iff.1 hc)
      obtain ⟨q, hq, hname⟩ := hfull.terminal group hgroup _ he
      rw [Grammar.production_eq_ok_iff.2 ⟨hq, hname⟩]
      exact .ok _
    | none | list items => exact .error rfl
    | node m =>
      rw [encodeAttr_node]
      exact .error rfl

theorem encodeValues_failsOnly (hfull : c.grammar.Full) {kind : FieldKind}
    {items : List (Attr Node)}
    (ih : ∀ i ∈ items, ∀ m ∈ i.nodes, FailsOnly (·.blamesNode = true) (c.encode m)) :
    FailsOnly (·.blamesNode = true) (c.encodeValues p f kind (items.map c.encodeAttr)) := by
  induction items with
  | nil => exact .ok _
  | cons a items ih' =>
    rw [List.forall_mem_cons] at ih
    rw [List.map_cons, encodeValues]
    refine .bind (encodeValue_failsOnly hfull ih.1) fun _ _ => ?_
    exact .bind (ih' ih.2) fun _ _ => .ok _

/-- A field that something is done with fails only at its values. -/
theorem encodeField_failsOnly (hfull : c.grammar.Full) {n : Node} {a : Attr Node} {kind : FieldKind}
    (hkind : c.fieldKind? f.typeName = some kind) (hget : n.get? f.name = some a)
    (hshape : f.cardinality = .multiple ↔ a.list?.isSome = true)
    (ih : ∀ m ∈ a.nodes, FailsOnly (·.blamesNode = true) (c.encode m)) :
    FailsOnly (·.blamesNode = true) (c.encodeField n.kind (n.attrs.map c.encodeAttr) p f) := by
  unfold encodeField
  simp only [get?_encodeAttr hget, classify_eq_ok_iff.2 hkind]
  refine .bind (.ok kind) fun _ _ => .bind (elements_failsOnly hshape) fun es hes => ?_
  obtain ⟨items, hholds, rfl⟩ := holds_of_elements hshape hes
  refine .bind (encodeValues_failsOnly hfull fun i hi m hm => ih m ?_) fun _ _ => .ok _
  exact (hholds.subset hi).1 hm

/-- **What an encoder fails with.** Over a plain and full grammar the errors of the encoder are
about the values of the node. -/
theorem encode_failsOnly (hp : c.grammar.Plain root) (hfull : c.grammar.Full) {n : Node}
    (hn : n.WellShaped) : FailsOnly (·.blamesNode = true) (c.encode n) := by
  -- The induction is on the shape of the node: what is asked of a node is asked of its children.
  induction hn with
  | @intro n here _ ih =>
    obtain ⟨p, hmem, hname⟩ := hfull.kind n.kind
    have hprod : c.grammar.production? n.kind.name = some p :=
      Grammar.production?_eq_some_iff.2 ⟨hmem, hname⟩
    have hc : c.grammar.IsComposite p.typeName :=
      hp.isComposite hmem (by rw [hname, Kind.ofName?_name])
    have hget := get?_of_agrees (Grammar.agrees_of_production? hp.verify hp.ofName?_leaf hprod) here
    rw [encode_eq, assemble, hprod]
    refine .bind ?_ fun slots hslots => ?_
    · rw [encodeFields_eq_mapM]
      refine .mapM fun f hf => ?_
      obtain ⟨a, ha, hfa, hshape⟩ := forall₂_exists_right hget hf
      obtain ⟨kind, hkind⟩ := exists_fieldKind?_of_plain hp hmem hc hf
      refine encodeField_failsOnly hfull hkind hfa hshape fun m hm => ih m ?_
      exact Node.mem_children.2 ⟨a, ha, hm⟩
    · -- The slots are those of the fields, so they are taken.
      have hfields := ((encodeFields_eq_ok_iff hget).1 hslots).1
      rw [ofSlots_eq_ok_iff.2 ⟨hfields.symm, rfl⟩]
      exact .ok _

/-! ### Decoding -/

theorem decodeTerminal_failsOnly (typeName constructor : String) :
    FailsOnly (·.blamesTree = true) (decodeTerminal typeName constructor) := by
  unfold decodeTerminal
  cases Terminal.token? typeName constructor with
  | none => exact .error rfl
  | some token => exact .ok token

theorem leafTokens_failsOnly {constructor field : String} (vs : List (Value Tree)) :
    FailsOnly (·.blamesTree = true) (leafTokens constructor field vs) := by
  induction vs with
  | nil => exact .ok _
  | cons v vs ih =>
    cases v with
    | token text => exact .map ih
    | child t => exact .error rfl

theorem decodeLeaf_failsOnly {leaf : LeafKind} (t : Tree) :
    FailsOnly (·.blamesTree = true) (c.decodeLeaf leaf t) := by
  unfold decodeLeaf
  split
  · refine .bind (leafTokens_failsOnly _) fun tokens _ => ?_
    split
    · split
      · exact .ok _
      · exact .error rfl
    · split
      · exact .ok _
      · exact .error rfl
  · exact .error rfl

theorem reshape_failsOnly {constructor : String} (values : List (Attr Node)) :
    FailsOnly (·.blamesTree = true) (reshape constructor f values) := by
  unfold reshape
  split
  · exact .ok _
  · exact .ok _
  · exact .ok _
  · exact .ok _
  · exact .error rfl

/-- A value is refused if it is a text, or a tree that cannot be read as the field asks. -/
theorem decodeValue_failsOnly {kind : FieldKind} {v : Value Tree}
    (ih : ∀ t, v = .child t → FailsOnly (·.blamesTree = true) (c.decode t)) :
    FailsOnly (·.blamesTree = true) (c.decodeValue p f kind v) := by
  cases v with
  | token text =>
    rw [decodeValue]
    exact .error rfl
  | child t =>
    cases kind with
    | composite =>
      rw [decodeValue]
      exact .map (ih t rfl)
    | leaf leaf =>
      rw [decodeValue]
      exact .map (decodeLeaf_failsOnly t)
    | terminal =>
      rw [decodeValue]
      exact .map (decodeTerminal_failsOnly f.typeName t.name)

/-- A slot that something is done with fails only at its values and their number. -/
theorem decodeSlot_failsOnly {s : Slot Tree} {kind : FieldKind}
    (hkind : c.fieldKind? s.field.typeName = some kind)
    (ih : ∀ t, Value.child t ∈ s.values → FailsOnly (·.blamesTree = true) (c.decode t)) :
    FailsOnly (·.blamesTree = true) (c.decodeSlot p s) := by
  obtain ⟨f, values⟩ := s
  rw [decodeSlot, classify_eq_ok_iff.2 hkind]
  refine .bind (.ok kind) fun _ _ => .bind ?_ fun _ _ => ?_
  · rw [decodeValues_eq_mapM]
    refine .mapM fun v hv => decodeValue_failsOnly fun t ht => ih t ?_
    rw [← ht]
    exact hv
  · exact .bind (reshape_failsOnly _) fun _ _ => .ok _

/-- **What a decoder fails with.** Over a plain grammar the errors of the decoder are about the
names and the values of the tree. -/
theorem decode_failsOnly (hp : c.grammar.Plain root) {t : Tree} (ho : t.Over c.grammar) :
    FailsOnly (·.blamesTree = true) (c.decode t) := by
  induction ho with
  | @intro t here _ ih =>
    obtain ⟨p, slots⟩ := t
    rw [decode]
    cases hk : Kind.ofName? p.name with
    | none => exact .error rfl
    | some kind =>
      have hc : c.grammar.IsComposite p.typeName := hp.isComposite here.mem hk
      refine .bind ?_ fun named hnamed => ?_
      · rw [decodeSlots_eq_mapM]
        refine .mapM fun s hs => ?_
        obtain ⟨kind, hkind⟩ := exists_fieldKind?_of_plain hp here.mem hc (here.mem_fields hs)
        refine decodeSlot_failsOnly hkind fun u hu => ih u ?_
        exact Tree.mem_subtrees.2 ⟨s, hs, hu⟩
      · -- The values have the names and shapes of the attributes, so they make a node.
        obtain ⟨kind', hk', ha⟩ := Grammar.verify_composite hp.verify here.mem hc
        obtain rfl : kind' = kind := Option.some.inj (hk'.symm.trans hk)
        obtain ⟨values, hvalues, rfl⟩ := decodeSlots_eq_ok_iff.1 hnamed
        rw [ofAttrs_of_reads (slots_agree here.fields ha) hvalues]
        exact .ok _

/-! ### The bundled grammar -/

/-- **Failures blame the input.** Over the bundled grammar an encoder fails only because of the
values of the node, and a decoder only because of the names and values of the tree; they never
report that the grammar, the kinds of node and the terminals disagree. -/
theorem failures_blame_input {g : Grammar} (hg : cGrammar = .ok g) (hc : c.grammar = g) :
    (∀ (n : Node) (e : ConvertError), n.Built → c.encode n = .error e → e.blamesNode = true) ∧
    (∀ (t : Tree) (e : ConvertError), t.Over g → c.decode t = .error e → e.blamesTree = true) := by
  subst hc
  have hp := cGrammar_plain hg
  refine ⟨fun n e hn he => ?_, fun t e ht he => ?_⟩
  · exact encode_failsOnly hp (cGrammar_full hg) hn.wellShaped e he
  · exact decode_failsOnly hp ht e he

/-- A name without a text is not encoded, and a tree that holds a text in the place of a leaf is not
decoded. -/
theorem failures_blame_input_name :
    (∃ e, (Converter.ofC none {}).encode (.ofKind .id) = .error e ∧ e.blamesNode = true) ∧
    ∃ t e, t.Over .ofC ∧ (Converter.ofC none {}).decode t = .error e ∧ e.blamesTree = true := by
  obtain ⟨hencode, hdecode⟩ := failures_blame_input (c := .ofC none {}) cGrammar_eq rfl
  have hover : Tree.Over .ofC
      ⟨⟨"EXPR", ⟨"ID", [.one "IDENT" "name"]⟩⟩, [⟨.one "IDENT" "name", [.token "x"]⟩]⟩ := by
    refine .intro ⟨?_, rfl⟩ fun u hu => absurd hu List.not_mem_nil
    decide +kernel
  refine ⟨⟨.missingRequiredField "ID" "name", rfl, ?_⟩, _, _, hover, rfl, ?_⟩
  · exact hencode _ _ (.ofKind .id) rfl
  · exact hdecode _ _ hover rfl

end Converter

end TypedSyntax
