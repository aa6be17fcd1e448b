import Mathlib.Data.List.Forall2
import TypedSyntax.Converter.Registry
import TypedSyntax.Proofs.Except
import TypedSyntax.Proofs.Grammar.Lookup
import TypedSyntax.Proofs.Terminal

/-!
# What the checks of a grammar say

Two checks stand between a grammar and its use for conversion. `Grammar.verify` compares the
productions with the vocabulary of nodes, and `Converter.resolve` looks for the leaf productions.
Here their success is read as what it says about the productions:

* `Grammar.verify_composite` — a production of composite type is named like a kind, and its fields
  agree one by one with the attributes of the kind (`Field.Agrees`);
* `Grammar.verify_terminal` — a production of a terminal type has no fields and has a spelling;
* `Converter.leaf_fits` — the leaf productions have their names, and each has one field of primitive
  type.

What neither of them looks at is the types of the fields, and the productions of the leaf types
other than those four.
-/

namespace TypedSyntax

/-! ### Composite types -/

/-- A sum type that is neither a leaf type nor a terminal type. -/
structure Grammar.IsComposite (g : Grammar) (typeName : String) : Prop where
  isSum : g.isSum typeName = true
  not_leaf : ∀ leaf : LeafKind, typeName ≠ leaf.typeName
  not_terminal : Terminal.isType typeName = false

/-- No leaf type is a terminal type. -/
theorem LeafKind.not_isType (leaf : LeafKind) : Terminal.isType leaf.typeName = false := by
  cases leaf <;> decide

theorem LeafKind.typeName_ne_literalType (leaf : LeafKind) :
    leaf.typeName ≠ Terminal.literalType := by
  cases leaf <;> decide

theorem LeafKind.token_ne_subword (leaf : LeafKind) :
    leaf.tokenConstructor ≠ leaf.subwordConstructor := by
  cases leaf <;> decide

/-- The names of the types that are treated as a kind says. -/
def FieldKind.Covers (typeName : String) : FieldKind → Prop
  | .leaf k => typeName = k.typeName
  | .terminal => Terminal.isType typeName = true
  | .composite => (∀ leaf : LeafKind, typeName ≠ leaf.typeName) ∧ Terminal.isType typeName = false

theorem LeafKind.ne_typeName_of_isType {typeName : String} (h : Terminal.isType typeName = true)
    (leaf : LeafKind) : typeName ≠ leaf.typeName := by
  rintro rfl
  rw [leaf.not_isType] at h
  exact absurd h Bool.false_ne_true

namespace Converter

variable {c : Converter} {typeName : String}

/-- Every sum type is treated in one way, and no other type is. -/
theorem fieldKind?_eq_some_iff {kind : FieldKind} :
    c.fieldKind? typeName = some kind ↔ c.grammar.isSum typeName = true ∧ kind.Covers typeName := by
  unfold fieldKind?
  cases hs : c.grammar.isSum typeName with
  | false => simp
  | true =>
    rw [if_neg (by simp)]
    constructor
    · -- Each test that failed on the way is one of the conditions for what comes after it.
      intro h
      refine ⟨rfl, ?_⟩
      split at h
      · next hident =>
        obtain rfl := Option.some.inj h
        exact hident
      · next hident =>
        split at h
        · next hstr =>
          obtain rfl := Option.some.inj h
          exact hstr
        · next hstr =>
          split at h
          · next ht =>
            obtain rfl := Option.some.inj h
            exact ht
          · next ht =>
            obtain rfl := Option.some.inj h
            refine ⟨fun leaf => ?_, Bool.eq_false_iff.2 ht⟩
            cases leaf with
            | ident => exact hident
            | str => exact hstr
    · rintro ⟨-, hcovers⟩
      cases kind with
      | leaf leaf =>
        obtain rfl : typeName = leaf.typeName := hcovers
        cases leaf with
        | ident => rw [if_pos rfl]
        | str => rw [if_neg (by decide), if_pos rfl]
      | terminal =>
        have ht : Terminal.isType typeName = true := hcovers
        have hne := LeafKind.ne_typeName_of_isType ht
        rw [if_neg (hne .ident), if_neg (hne .str), if_pos ht]
      | composite =>
        obtain ⟨hne, ht⟩ := hcovers
        rw [if_neg (hne .ident), if_neg (hne .str), if_neg (Bool.eq_false_iff.1 ht)]

theorem exists_fieldKind?_iff :
    (∃ kind, c.fieldKind? typeName = some kind) ↔ c.grammar.isSum typeName = true := by
  constructor
  · rintro ⟨kind, h⟩
    exact (fieldKind?_eq_some_iff.1 h).1
  · intro hs
    by_cases ht : Terminal.isType typeName = true
    · exact ⟨.terminal, fieldKind?_eq_some_iff.2 ⟨hs, ht⟩⟩
    by_cases hleaf : ∃ leaf : LeafKind, typeName = leaf.typeName
    · obtain ⟨leaf, hname⟩ := hleaf
      exact ⟨.leaf leaf, fieldKind?_eq_some_iff.2 ⟨hs, hname⟩⟩
    · have hcovers : FieldKind.composite.Covers typeName :=
        ⟨not_exists.1 hleaf, Bool.eq_false_iff.2 ht⟩
      exact ⟨.composite, fieldKind?_eq_some_iff.2 ⟨hs, hcovers⟩⟩

theorem fieldKind?_eq_composite_iff :
    c.fieldKind? typeName = some .composite ↔ c.grammar.IsComposite typeName := by
  rw [fieldKind?_eq_some_iff]
  exact ⟨fun h => ⟨h.1, h.2.1, h.2.2⟩, fun h => ⟨h.isSum, h.not_leaf, h.not_terminal⟩⟩

theorem fieldKind?_eq_leaf_iff {leaf : LeafKind} :
    c.fieldKind? typeName = some (.leaf leaf) ↔
      c.grammar.isSum typeName = true ∧ typeName = leaf.typeName :=
  fieldKind?_eq_some_iff

theorem fieldKind?_eq_terminal_iff :
    c.fieldKind? typeName = some .terminal ↔
      c.grammar.isSum typeName = true ∧ Terminal.isType typeName = true :=
  fieldKind?_eq_some_iff

end Converter

/-! ### Agreement with the vocabulary of nodes -/

/-- A field agrees with an attribute: they have the same name, and the field takes any number of
values exactly if the attribute holds a list. -/
structure Field.Agrees (f : Field) (spec : AttrSpec) : Prop where
  name : f.name = spec.name
  isList : f.cardinality = .multiple ↔ spec.isList = true

theorem agrees_of_verifyFields {constructor : String} {pairs : List (Field × AttrSpec)}
    (h : verifyFields constructor pairs = .ok ()) : ∀ e ∈ pairs, e.1.Agrees e.2 := by
  induction pairs with
  | nil => exact fun e he => absurd he List.not_mem_nil
  | cons e rest ih =>
    obtain ⟨f, spec⟩ := e
    rw [verifyFields] at h
    split at h
    · exact absurd h nofun
    · next hname =>
      split at h
      · exact absurd h nofun
      · next hlist =>
        rintro e (_ | ⟨_, he⟩)
        · refine ⟨not_not.1 hname, ?_⟩
          rw [← not_not.1 hlist, beq_iff_eq]
        · exact ih h e he

namespace Grammar

variable {g : Grammar} {p : Production}

/-- A production of composite type is named like a kind and agrees with its attributes. -/
theorem verify_composite (hv : g.verify = .ok ()) (hp : p ∈ g.productions)
    (hc : g.IsComposite p.typeName) :
    ∃ kind, Kind.ofName? p.name = some kind ∧ List.Forall₂ Field.Agrees p.fields kind.attrs := by
  have h := forM_eq_ok_iff.1 hv p hp
  unfold Production.verify at h
  -- Past the two exits for leaf and terminal types, the check compares with the kind.
  rw [if_neg (not_or.2 ⟨hc.not_leaf .ident, hc.not_leaf .str⟩),
    if_neg (by simp [hc.not_terminal])] at h
  split at h
  · exact absurd h nofun
  · next kind hk =>
    split at h
    · next hlen =>
      have hagrees := agrees_of_verifyFields h
      exact ⟨kind, hk, List.forall₂_iff_zip.2 ⟨hlen, fun {f spec} hmem => hagrees (f, spec) hmem⟩⟩
    · exact absurd h nofun

/-- A production of a terminal type has no fields and has a spelling. -/
theorem verify_terminal (hv : g.verify = .ok ()) (hp : p ∈ g.productions)
    (ht : Terminal.isType p.typeName = true) :
    p.fields = [] ∧ ∃ word, Terminal.token? p.typeName p.name = some word := by
  have h := forM_eq_ok_iff.1 hv p hp
  have hne := LeafKind.ne_typeName_of_isType ht
  unfold Production.verify at h
  rw [if_neg (not_or.2 ⟨hne .ident, hne .str⟩), if_pos ht] at h
  split at h
  · next hfields =>
    refine ⟨List.isEmpty_iff.1 hfields, ?_⟩
    obtain ⟨word, hw, -⟩ := map_eq_ok_iff.1 h
    unfold decodeTerminal at hw
    split at hw
    · next word' htoken => exact ⟨word', htoken⟩
    · exact absurd hw nofun
  · exact absurd h nofun

/-- A production that is named like a kind has a composite type, unless it belongs to a leaf
type. -/
theorem isComposite_of_ofName? (hv : g.verify = .ok ()) (hp : p ∈ g.productions) {kind : Kind}
    (hk : Kind.ofName? p.name = some kind) (hleaf : ∀ leaf : LeafKind, p.typeName ≠ leaf.typeName) :
    g.IsComposite p.typeName := by
  refine ⟨isSum_typeName hp, hleaf, ?_⟩
  rw [Bool.eq_false_iff]
  -- A production of a terminal type has a spelling, and what has a spelling is no kind of node.
  intro ht
  obtain ⟨-, word, hw⟩ := verify_terminal hv hp ht
  rw [Terminal.ofName?_of_token? hw] at hk
  exact absurd hk nofun

/-- If no leaf production is named like a kind, the production of a kind agrees with its
attributes. -/
theorem agrees_of_production? (hv : g.verify = .ok ())
    (hleaf : ∀ q ∈ g.productions, ∀ leaf : LeafKind, q.typeName = leaf.typeName →
      Kind.ofName? q.name = none)
    {kind : Kind} (hp : g.production? kind.name = some p) :
    List.Forall₂ Field.Agrees p.fields kind.attrs := by
  obtain ⟨hmem, hname⟩ := production?_eq_some_iff.1 hp
  have hk : Kind.ofName? p.name = some kind := by rw [hname, Kind.ofName?_name]
  have hc : g.IsComposite p.typeName := by
    refine isComposite_of_ofName? hv hmem hk fun leaf htype => ?_
    rw [hleaf p hmem leaf htype] at hk
    exact absurd hk nofun
  obtain ⟨kind', hk', ha⟩ := verify_composite hv hmem hc
  rw [hk] at hk'
  exact Option.some.inj hk' ▸ ha

end Grammar

/-! ### Leaf productions -/

/-- A production has exactly one field, which has a primitive type and the given cardinality. -/
structure Production.HoldsTexts (g : Grammar) (p : Production) (f : Field) (k : Cardinality) :
    Prop where
  mem : p ∈ g.productions
  fields : p.fields = [f]
  cardinality : f.cardinality = k
  primitive : g.isPrimitive f.typeName = true

theorem holdsTexts_of_leafField {g : Grammar} {p : Production} {f : Field} {k : Cardinality}
    (hp : p ∈ g.productions) (h : leafField g p k = .ok f) : p.HoldsTexts g f k := by
  unfold leafField at h
  split at h
  · next f' hfields =>
    split at h
    · next hf =>
      obtain rfl := Except.ok.inj h
      exact ⟨hp, hfields, hf.1, hf.2⟩
    · exact absurd h nofun
  · exact absurd h nofun

/-- The productions of a leaf type are those with the two leaf names. -/
structure LeafProductions.Fits (g : Grammar) (leaf : LeafKind) (found : LeafProductions) :
    Prop where
  token_name : found.token.name = leaf.tokenConstructor
  token : found.token.HoldsTexts g found.tokenField .single
  subword_name : found.subword.name = leaf.subwordConstructor
  subword : found.subword.HoldsTexts g found.piecesField .multiple

/-- The leaf productions of a converter are as they should be. -/
theorem Converter.leaf_fits (c : Converter) (leaf : LeafKind) :
    LeafProductions.Fits c.grammar leaf (c.leaf leaf) := by
  -- A converter carries the proof that its leaf productions were found, so the search is taken
  -- apart step by step.
  obtain ⟨token, ht, h⟩ := bind_eq_ok_iff.1 (c.resolve_leaf leaf)
  obtain ⟨subword, hs, h⟩ := bind_eq_ok_iff.1 h
  obtain ⟨tokenField, htf, h⟩ := bind_eq_ok_iff.1 h
  obtain ⟨piecesField, hpf, h⟩ := bind_eq_ok_iff.1 h
  rw [mapError_eq_ok_iff, Grammar.production_eq_ok_iff] at ht hs
  rw [← Except.ok.inj h]
  exact ⟨ht.2, holdsTexts_of_leafField ht.1 htf, hs.2, holdsTexts_of_leafField hs.1 hpf⟩

theorem Converter.fieldKind?_eq {c d : Converter} (h : c.grammar = d.grammar) (typeName : String) :
    c.fieldKind? typeName = d.fieldKind? typeName := by
  unfold fieldKind?
  rw [h]

/-- Converters over one grammar have the same leaf productions, whatever their models and settings,
which are not looked at when a converter is resolved. -/
theorem Converter.leaf_eq {c d : Converter} (h : c.grammar = d.grammar) (leaf : LeafKind) :
    c.leaf leaf = d.leaf leaf := by
  -- Both were found by the same search.
  have hc := c.resolve_leaf leaf
  rw [h, d.resolve_leaf leaf] at hc
  exact (Except.ok.inj hc).symm

/-! ### Plain and full grammars -/

/-- In a *plain* grammar the name of a constructor tells its type, as far as conversion looks at
names: there is one composite type, the leaf names belong to the leaf types, and the terminals of a
group belong to the type of the group. -/
structure Grammar.Plain (g : Grammar) (root : String) : Prop where
  verify : g.verify = .ok ()
  composite : ∀ typeName, g.IsComposite typeName ↔ typeName = root
  leaf : ∀ p ∈ g.productions, ∀ leaf : LeafKind, p.typeName = leaf.typeName ↔
    p.name = leaf.tokenConstructor ∨ p.name = leaf.subwordConstructor
  terminal : ∀ p ∈ g.productions, ∀ typeName ∈ Terminal.types,
    (Terminal.token? typeName p.name).isSome → p.typeName = typeName
  /-- No production of composite type has a field of primitive type. -/
  fields : ∀ p ∈ g.productions, p.typeName = root → ∀ f ∈ p.fields, g.isPrimitive f.typeName = false

/-- No leaf production of a plain grammar is named like a kind of node. -/
theorem Grammar.Plain.ofName?_leaf {g : Grammar} {root : String} (h : g.Plain root) :
    ∀ p ∈ g.productions, ∀ leaf : LeafKind, p.typeName = leaf.typeName →
      Kind.ofName? p.name = none := by
  intro p hp leaf htype
  rcases (h.leaf p hp leaf).1 htype with hname | hname
  · rw [hname]
    cases leaf <;> decide +kernel
  · rw [hname]
    cases leaf <;> decide +kernel

/-- A production of a plain grammar that has a spelling in a group belongs to the type of the group
and has no fields. -/
theorem Grammar.Plain.of_token? {g : Grammar} {root : String} (h : g.Plain root) {p : Production}
    (hp : p ∈ g.productions) {typeName word : String}
    (hw : Terminal.token? typeName p.name = some word) : p.typeName = typeName ∧ p.fields = [] := by
  obtain rfl : p.typeName = typeName :=
    h.terminal p hp typeName (Terminal.mem_types_of_token? hw) (Option.isSome_iff_exists.2 ⟨_, hw⟩)
  exact ⟨rfl, (verify_terminal h.verify hp (Terminal.isType_of_token? hw)).1⟩

/-- A production of a plain grammar that is named like a kind has the composite type. -/
theorem Grammar.Plain.isComposite {g : Grammar} {root : String} (h : g.Plain root) {p : Production}
    (hp : p ∈ g.productions) {kind : Kind} (hk : Kind.ofName? p.name = some kind) :
    g.IsComposite p.typeName := by
  refine isComposite_of_ofName? h.verify hp hk fun leaf htype => ?_
  rw [h.ofName?_leaf p hp leaf htype] at hk
  exact absurd hk nofun

/-- Over a plain grammar something is done with every field of a production of the composite
type. -/
theorem Converter.exists_fieldKind?_of_plain {c : Converter} {root : String}
    (h : c.grammar.Plain root) {p : Production} (hp : p ∈ c.grammar.productions)
    (hc : c.grammar.IsComposite p.typeName) {f : Field} (hf : f ∈ p.fields) :
    ∃ kind, c.fieldKind? f.typeName = some kind := by
  have hprim := h.fields p hp ((h.composite _).1 hc) f hf
  refine exists_fieldKind?_iff.2 ?_
  rcases Grammar.isSum_or_isPrimitive hp hf with hs | hs
  · exact hs
  · exact absurd (hprim.symm.trans hs) nofun

/-- A grammar is *full* if it has a production for every kind of node and for every constructor of
a group of terminals. -/
structure Grammar.Full (g : Grammar) : Prop where
  kind : ∀ kind : Kind, ∃ p ∈ g.productions, p.name = kind.name
  terminal : ∀ group ∈ Terminal.groups, ∀ e ∈ group.entries, ∃ p ∈ g.productions, p.name = e.2

end TypedSyntax
