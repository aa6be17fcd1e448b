import TypedSyntax.Proofs.CGrammar
import TypedSyntax.Proofs.Converter.Correspondence

/-!
# Encoding what was decoded

A tree that is decoded can be encoded again. A converter without a model writes every leaf as a
token leaf, so what comes out is the tree with its *raw* leaves (`Converter.rawLeaves`): each
subword leaf is replaced by the token leaf that holds what its pieces spell, and nothing else is
changed.

* `Converter.encode_decode_plain` — over a plain grammar;
* `Converter.encode_decode` — over the bundled grammar, with what follows for trees that have no
  subword leaves: these are encoded as they are, so every one of them that is decoded is the tree of
  some node.

This is the other direction of the round trip. Here a terminal goes from its constructor to its
spelling and back, which changes nothing, so no canonical form is needed; but the trees may come
from anywhere, so the name of a child has to tell its production (`Grammar.Plain`).
-/

namespace TypedSyntax

/-! ### Raw leaves -/

/-- The leaf type whose pieces a constructor holds. -/
def LeafKind.ofSubword? (name : String) : Option LeafKind :=
  if name = LeafKind.ident.subwordConstructor then some .ident
  else if name = LeafKind.str.subwordConstructor then some .str
  else none

theorem LeafKind.ofSubword?_eq_some_iff {name : String} {leaf : LeafKind} :
    ofSubword? name = some leaf ↔ name = leaf.subwordConstructor := by
  unfold ofSubword?
  constructor
  · intro h
    split at h
    · next hname => cases Option.some.inj h; exact hname
    · split at h
      · next hname => cases Option.some.inj h; exact hname
      · exact absurd h nofun
  · rintro rfl
    cases leaf with
    | ident => rw [if_pos rfl]
    | str => rw [if_neg (by decide), if_pos rfl]

/-- The raw text, if the value is one. -/
def Value.text? {α : Type} : Value α → Option String
  | .child _ => none
  | .token text => some text

namespace Converter

mutual

/-- The tree with each subword leaf replaced by the token leaf that holds what its pieces spell. -/
def rawLeaves (c : Converter) : Tree → Tree
  | ⟨p, slots⟩ =>
    match LeafKind.ofSubword? p.name with
    | some leaf =>
      c.tokenLeaf leaf
        (Subword.join c.settings.marker (slots.flatMap (·.values.filterMap Value.text?)))
    | none => ⟨p, rawSlots c slots⟩

/-- A list of slots with raw leaves. -/
def rawSlots (c : Converter) : List (Slot Tree) → List (Slot Tree)
  | [] => []
  | ⟨f, values⟩ :: ss => ⟨f, rawValues c values⟩ :: rawSlots c ss

/-- A list of values with raw leaves. -/
def rawValues (c : Converter) : List (Value Tree) → List (Value Tree)
  | [] => []
  | v :: vs => rawValue c v :: rawValues c vs

/-- A value with raw leaves. -/
def rawValue (c : Converter) : Value Tree → Value Tree
  | .token text => .token text
  | .child t => .child (rawLeaves c t)

end

theorem rawValues_eq_map (c : Converter) (vs : List (Value Tree)) :
    c.rawValues vs = vs.map c.rawValue := by
  induction vs with
  | nil => rw [rawValues, List.map_nil]
  | cons v vs ih => rw [rawValues, List.map_cons, ih]

theorem rawSlots_eq_map (c : Converter) (ss : List (Slot Tree)) :
    c.rawSlots ss = ss.map fun s => ⟨s.field, s.values.map c.rawValue⟩ := by
  induction ss with
  | nil => rw [rawSlots, List.map_nil]
  | cons s ss ih => rw [rawSlots, List.map_cons, ih, rawValues_eq_map]

/-- A node that is no subword leaf keeps its production, and its values are changed one by one. -/
theorem rawLeaves_eq (c : Converter) {t : Tree} (h : LeafKind.ofSubword? t.name = none) :
    c.rawLeaves t = ⟨t.production, t.slots.map fun s => ⟨s.field, s.values.map c.rawValue⟩⟩ := by
  obtain ⟨p, slots⟩ := t
  rw [rawLeaves, show LeafKind.ofSubword? p.name = none from h, rawSlots_eq_map]

/-- A token leaf is raw as it is. -/
theorem rawLeaves_tokenLeaf (c : Converter) (leaf : LeafKind) (text : String) :
    c.rawLeaves (c.tokenLeaf leaf text) = c.tokenLeaf leaf text := by
  have hname : LeafKind.ofSubword? (c.tokenLeaf leaf text).name = none := by
    show LeafKind.ofSubword? (c.leaf leaf).token.name = none
    rw [(c.leaf_fits leaf).token_name]
    cases leaf <;> rfl
  rw [rawLeaves_eq c hname]
  rfl

/-- A subword leaf becomes the token leaf for the text that its pieces spell. -/
theorem rawLeaves_subwordLeaf (c : Converter) (leaf : LeafKind) (pieces : List String) :
    c.rawLeaves (c.subwordLeaf leaf pieces) =
      c.tokenLeaf leaf (Subword.join c.settings.marker pieces) := by
  have hname : LeafKind.ofSubword? (c.leaf leaf).subword.name = some leaf := by
    rw [(c.leaf_fits leaf).subword_name, LeafKind.ofSubword?_eq_some_iff]
  have htexts : (pieces.map Value.token : List (Value Tree)).filterMap Value.text? = pieces := by
    rw [List.filterMap_map]
    exact List.filterMap_some
  rw [subwordLeaf, rawLeaves, hname]
  show c.tokenLeaf leaf _ = _
  rw [List.flatMap_singleton, htexts]

/-- A tree without subword leaves is left as it is. -/
theorem rawLeaves_eq_self (c : Converter) {t : Tree}
    (h : t.All fun u => LeafKind.ofSubword? u.name = none) : c.rawLeaves t = t := by
  induction h with
  | @intro t here _ ih =>
    -- No node is replaced here, and by induction none below it.
    rw [rawLeaves_eq c here]
    obtain ⟨p, slots⟩ := t
    have hslots : slots.map (fun s => ⟨s.field, s.values.map c.rawValue⟩) = slots := by
      refine (List.map_congr_left fun s hs => ?_).trans (List.map_id slots)
      have hvalues : s.values.map c.rawValue = s.values := by
        refine (List.map_congr_left fun v hv => ?_).trans (List.map_id s.values)
        cases v with
        | token text => rw [rawValue, id]
        | child u => rw [rawValue, ih u (Tree.mem_subtrees.2 ⟨s, hs, hv⟩), id]
      rw [hvalues, id]
    rw [hslots]

/-! ### One value and one slot -/

variable {g : Grammar} {root : String} {enc dec : Converter} {t : Tree}

/-- In a plain grammar only the leaf types have subword leaves. -/
theorem ofSubword?_eq_none (hp : g.Plain root) {p : Production} (hmem : p ∈ g.productions)
    (hne : ∀ leaf : LeafKind, p.typeName ≠ leaf.typeName) :
    LeafKind.ofSubword? p.name = none := by
  cases hsub : LeafKind.ofSubword? p.name with
  | none => rfl
  | some leaf =>
    have hname := LeafKind.ofSubword?_eq_some_iff.1 hsub
    exact absurd ((hp.leaf p hmem leaf).2 (Or.inr hname)) (hne leaf)

/-- What is read from a value is written as that value with raw leaves. This is where the two
directions meet: a node by induction, a text by what decoding a leaf gives, and a terminal because
its constructor has a spelling that stands for it. -/
theorem Reads.writes (hp : g.Plain root) (henc : enc.grammar = g) (hdec : dec.grammar = g)
    (hmodel : enc.model = none) {f : Field} {kind : FieldKind} {v : Value Tree} {a : Attr Node}
    (hm : ∀ u, v = .child u → u.MirrorsAt g)
    (ih : ∀ u, v = .child u → ∀ n, dec.decode u = .ok n → enc.encode n = .ok (dec.rawLeaves u))
    (h : dec.Reads f kind v a) : enc.Writes f kind a (dec.rawValue v) := by
  cases h with
  | @composite u n h =>
    rw [rawValue]
    exact .composite (ih u rfl n h)
  | @leaf leaf u text h =>
    -- Both kinds of leaf become the token leaf for the text, which is what the encoder writes.
    have hleaf : dec.rawLeaves u = enc.leafTree leaf text := by
      have hraw : enc.leafTree leaf text = dec.tokenLeaf leaf text := by
        unfold leafTree tokenLeaf
        rw [hmodel, leaf_eq (henc.trans hdec.symm)]
      rw [hraw]
      obtain rfl | ⟨pieces, rfl, rfl⟩ := decodeLeaf_cases (hdec ▸ hm u rfl) h
      · exact rawLeaves_tokenLeaf dec leaf text
      · exact rawLeaves_subwordLeaf dec leaf pieces
    rw [rawValue, hleaf]
    exact .leaf leaf text
  | @terminal u text h =>
    have hu := hm u rfl
    -- The name of the child tells that it belongs to the group, so it has no slots.
    obtain ⟨htype, hfields⟩ := hp.of_token? hu.mem h
    have hterm : Terminal.isType u.production.typeName = true :=
      htype ▸ Terminal.isType_of_token? h
    have hname : LeafKind.ofSubword? u.name = none :=
      ofSubword?_eq_none hp hu.mem (LeafKind.ne_typeName_of_isType hterm)
    have hraw : dec.rawLeaves u = .ofProduction u.production := by
      rw [rawLeaves_eq dec hname, hu.slots_eq_nil hfields, Tree.ofProduction, hfields,
        List.map_nil, List.map_nil]
    rw [rawValue, hraw]
    exact .terminal (Terminal.constructor?_of_token? h) (henc ▸ hu.mem) rfl

/-- What is read from a slot is written as that slot with raw leaves. -/
theorem ReadsSlot.writes (hp : g.Plain root) (henc : enc.grammar = g) (hdec : dec.grammar = g)
    (hmodel : enc.model = none) {s : Slot Tree} {a : Attr Node}
    (hm : ∀ u, Value.child u ∈ s.values → u.MirrorsAt g)
    (ih : ∀ u, Value.child u ∈ s.values → ∀ n, dec.decode u = .ok n →
      enc.encode n = .ok (dec.rawLeaves u))
    (h : dec.ReadsSlot s a) : enc.WritesSlot a ⟨s.field, s.values.map dec.rawValue⟩ := by
  obtain ⟨kind, items, hkind, hreads, hholds⟩ := h
  refine ⟨kind, items, ?_, hholds, ?_⟩
  · rw [fieldKind?_eq (henc.trans hdec.symm)]
    exact hkind
  · rw [List.forall₂_map_right_iff]
    refine (forall₂_flip_mem hreads).imp fun i v hv => ?_
    refine hv.2.writes hp henc hdec hmodel ?_ ?_
    · rintro u rfl
      exact hm u hv.1
    · rintro u rfl
      exact ih u hv.1

/-! ### Whole trees -/

/-- **Encoding undoes decoding, over a plain grammar.** The converters may have different settings,
of which only those of the decoder matter, since it is the one to join pieces. -/
theorem encode_decode_plain (hp : g.Plain root) (henc : enc.grammar = g) (hdec : dec.grammar = g)
    (hmodel : enc.model = none) (ho : t.Over g) {n : Node} (h : dec.decode t = .ok n) :
    enc.encode n = .ok (dec.rawLeaves t) := by
  induction ho generalizing n with
  | @intro t here deeper ih =>
    -- The name of the root is that of a kind, so its type is composite and its production agrees
    -- with the kind. That makes both conversions go field by field.
    obtain ⟨kind, hk⟩ := exists_kind_of_decode h
    have hname := Kind.name_eq_of_ofName? hk
    have hc := hp.isComposite here.mem hk
    obtain ⟨kind', hk', ha⟩ := Grammar.verify_composite hp.verify here.mem hc
    obtain rfl : kind = kind' := Option.some.inj (hk.symm.trans hk')
    obtain ⟨rfl, hreads⟩ := (decode_eq_ok_iff hk ha here.fields).1 h
    -- What was decoded has the shape that the encoder expects.
    have hshape : n.ShapedAt := hasShape_of_reads (slots_agree here.fields ha) hreads
    have hproduction : enc.grammar.production? n.kind.name = some t.production := by
      rw [henc, hname]
      exact here.production?
    -- The root itself is no leaf, so only its children are changed.
    have hsub := ofSubword?_eq_none hp here.mem hc.not_leaf
    rw [encode_eq_ok_iff hproduction ha hshape, rawLeaves_eq dec hsub]
    refine ⟨rfl, ?_, ?_⟩
    · rw [List.map_map]
      exact here.fields
    · rw [List.forall₂_map_right_iff]
      refine (forall₂_flip_mem hreads).imp fun a s hs => ?_
      refine hs.2.writes hp henc hdec hmodel ?_ ?_
      · exact fun u hu => (deeper u (Tree.mem_subtrees.2 ⟨s, hs.1, hu⟩)).here
      · exact fun u hu n hn => ih u (Tree.mem_subtrees.2 ⟨s, hs.1, hu⟩) hn

/-- **Encoding undoes decoding, over the bundled grammar.** A tree that is decoded is encoded again,
by a converter without a model, with its subword leaves replaced by token leaves. If it has no
subword leaves it is encoded as it is. -/
theorem encode_decode (hg : cGrammar = .ok g) (henc : enc.grammar = g) (hdec : dec.grammar = g)
    (hmodel : enc.model = none) (ho : t.Over g) {n : Node} (h : dec.decode t = .ok n) :
    enc.encode n = .ok (dec.rawLeaves t) ∧
      ((t.All fun u => LeafKind.ofSubword? u.name = none) → enc.encode n = .ok t) := by
  have hraw := encode_decode_plain (cGrammar_plain hg) henc hdec hmodel ho h
  refine ⟨hraw, fun hnone => ?_⟩
  rw [hraw, rawLeaves_eq_self dec hnone]

/-- A name that is stored in two pieces is decoded, and encoded again as one text. -/
theorem encode_decode_pieces :
    (Converter.ofC none {}).decode
        (.ofName ((Converter.ofC none {}).subwordLeaf .ident ["\u2581fo", "o"])) =
      .ok ⟨.id, [.text "foo"]⟩ ∧
    (Converter.ofC none {}).encode ⟨.id, [.text "foo"]⟩ =
      .ok (.ofName ((Converter.ofC none {}).tokenLeaf .ident "foo")) := by
  have hover : Tree.Over .ofC
      (.ofName ((Converter.ofC none {}).subwordLeaf .ident ["\u2581fo", "o"])) := by
    refine .intro ⟨by decide +kernel, rfl⟩ fun s hs => ?_
    obtain rfl := List.mem_singleton.1 hs
    exact .intro ⟨by decide +kernel, rfl⟩ nofun
  have hdecode : (Converter.ofC none {}).decode
      (.ofName ((Converter.ofC none {}).subwordLeaf .ident ["\u2581fo", "o"])) =
        .ok ⟨.id, [.text "foo"]⟩ := by
    rfl
  exact ⟨hdecode, (encode_decode cGrammar_eq rfl rfl rfl hover hdecode).1⟩

end Converter

end TypedSyntax
