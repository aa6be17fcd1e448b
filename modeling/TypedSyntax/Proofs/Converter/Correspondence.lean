import TypedSyntax.Converter.Decode
import TypedSyntax.Converter.Encode
import TypedSyntax.Proofs.Converter.Registry
import TypedSyntax.Proofs.Node.Shape
import TypedSyntax.Proofs.Tree.Typing

/-!
# Encoding and decoding, field by field

Where a production agrees with a kind of node, a conversion between a node of that kind and a tree
of that production goes field by field, and a field goes value by value. Three relations say so:

* `Cardinality.Holds` — the values of a field and the value of the attribute that they make up;
* `Converter.Writes`, `Converter.Reads` — one value of an attribute and the tree for it, by what is
  done with the type of the field;
* `Converter.WritesSlot`, `Converter.ReadsSlot` — the value of an attribute and the slot for it.

The two main statements, `Converter.encode_eq_ok_iff` and `Converter.decode_eq_ok_iff`, describe the
successes of both functions by these relations. No later proof unfolds the functions.
-/

namespace TypedSyntax

/-! ### Cardinalities -/

/-- The values of a field make up the value of an attribute: one that is the value itself, at most
one that may be missing, or the items of a list. -/
def Cardinality.Holds : Cardinality → List (Attr Node) → Attr Node → Prop
  | .single, items, a => items = [a]
  | .optional, items, a => items = [] ∧ a = .none ∨ items = [a]
  | .multiple, items, a => a = .list items

namespace Converter

variable {c : Converter} {p : Production} {f : Field}

/-- The decoder puts values together exactly if they make up the value of an attribute, which then
is what it gives. -/
theorem reshape_eq_ok_iff {constructor : String} {items : List (Attr Node)} {a : Attr Node} :
    reshape constructor f items = .ok a ↔ f.cardinality.Holds items a := by
  unfold reshape
  cases f.cardinality with
  | multiple => simp [Cardinality.Holds, eq_comm]
  | single =>
    match items with
    | [] => simp [Cardinality.Holds]
    | [b] => simp [Cardinality.Holds]
    | _ :: _ :: _ => simp [Cardinality.Holds]
  | optional =>
    match items with
    | [] => simp [Cardinality.Holds, eq_comm]
    | [b] => simp [Cardinality.Holds]
    | _ :: _ :: _ => simp [Cardinality.Holds]

/-- Whether values make up some value of an attribute depends on their number only. -/
theorem exists_holds_iff {k : Cardinality} {items : List (Attr Node)} :
    (∃ a, k.Holds items a) ↔ k.admits items.length = true := by
  cases k with
  | multiple => simp [Cardinality.Holds, Cardinality.admits]
  | single => simp [Cardinality.Holds, Cardinality.admits, List.length_eq_one_iff]
  | optional =>
    match items with
    | [] => simp [Cardinality.Holds, Cardinality.admits]
    | [b] => simp [Cardinality.Holds, Cardinality.admits]
    | _ :: _ :: _ => simp [Cardinality.Holds, Cardinality.admits]

/-- The encoded form of a value is of the same sort, and the items of a list are encoded one by
one. -/
theorem encodeAttr_list (c : Converter) (items : List (Attr Node)) :
    c.encodeAttr (.list items) = .list (items.map c.encodeAttr) := by
  rw [encodeAttr, encodeAttrs_eq_map]

theorem encodeAttr_node (c : Converter) (n : Node) :
    c.encodeAttr (.node n) = .node ⟨n.kind, c.encode n⟩ := by
  obtain ⟨kind, attrs⟩ := n
  rw [encodeAttr]

theorem holds_singleton {k : Cardinality} {a : Attr Node} (hk : k ≠ .multiple) : k.Holds [a] a := by
  cases k with
  | single => rfl
  | optional => exact Or.inr rfl
  | multiple => exact absurd rfl hk

/-- A value that is neither missing nor a list is taken as the only one. -/
theorem elements_scalar {a : Attr Node} (hk : f.cardinality ≠ .multiple)
    (ha : a.isNone = false ∧ a.list? = none) :
    elements p f (c.encodeAttr a) = .ok [c.encodeAttr a] := by
  cases a with
  | none => exact absurd ha.1 (by simp [Attr.isNone])
  | list items => exact absurd ha.2 (by simp [Attr.list?])
  | text s => cases hc : f.cardinality <;> simp_all [elements, encodeAttr]
  | node n => cases hc : f.cardinality <;> simp_all [elements, encodeAttr_node]

/-- The values that the encoder takes from an attribute of the right shape make it up. -/
theorem holds_of_elements {a : Attr Node} {es : List (Attr Encoded)}
    (hshape : f.cardinality = .multiple ↔ a.list?.isSome = true)
    (h : elements p f (c.encodeAttr a) = .ok es) :
    ∃ items, f.cardinality.Holds items a ∧ es = items.map c.encodeAttr := by
  cases a with
  | none =>
    -- A missing value stands for no values, which a single field does not allow.
    rw [encodeAttr] at h
    cases hk : f.cardinality with
    | single => simp [elements, hk] at h
    | optional =>
      simp only [elements, hk, Except.ok.injEq] at h
      exact ⟨[], Or.inl ⟨rfl, rfl⟩, h.symm⟩
    | multiple => simp [hk, Attr.list?] at hshape
  | list items =>
    have hk : f.cardinality = .multiple := hshape.2 rfl
    rw [encodeAttr_list] at h
    simp only [elements, hk, Except.ok.injEq] at h
    exact ⟨items, by rw [hk]; rfl, h.symm⟩
  | text _ | node _ =>
    -- Not a list, so by `hshape` the field does not take any number of values.
    have hk : f.cardinality ≠ .multiple := fun hk => absurd (hshape.1 hk) (by simp [Attr.list?])
    rw [elements_scalar hk ⟨rfl, rfl⟩] at h
    exact ⟨[_], holds_singleton hk, (Except.ok.inj h).symm⟩

/-- Texts and nodes that make up the value of an attribute are what the encoder takes from it. -/
theorem elements_of_holds {a : Attr Node} {items : List (Attr Node)}
    (h : f.cardinality.Holds items a)
    (hitems : ∀ i ∈ items, i.isNone = false ∧ i.list? = none) :
    elements p f (c.encodeAttr a) = .ok (items.map c.encodeAttr) := by
  cases hk : f.cardinality with
  | single =>
    rw [hk] at h
    obtain rfl : items = [a] := h
    exact elements_scalar (by simp [hk]) (hitems a List.mem_cons_self)
  | optional =>
    rw [hk] at h
    rcases h with ⟨rfl, rfl⟩ | rfl
    · simp [elements, hk, encodeAttr]
    · exact elements_scalar (by simp [hk]) (hitems a List.mem_cons_self)
  | multiple =>
    rw [hk] at h
    obtain rfl : a = .list items := h
    rw [encodeAttr_list]
    simp [elements, hk]

/-! ### One value -/

/-- The leaf that holds a text as it is. -/
def tokenLeaf (c : Converter) (leaf : LeafKind) (text : String) : Tree :=
  ⟨(c.leaf leaf).token, [⟨(c.leaf leaf).tokenField, [.token text]⟩]⟩

/-- The leaf that holds subword pieces. -/
def subwordLeaf (c : Converter) (leaf : LeafKind) (pieces : List String) : Tree :=
  ⟨(c.leaf leaf).subword, [⟨(c.leaf leaf).piecesField, pieces.map .token⟩]⟩

/-- The leaf for a text: the text itself, or its pieces if the converter has a model. -/
def leafTree (c : Converter) (leaf : LeafKind) (text : String) : Tree :=
  match c.model with
  | none => c.tokenLeaf leaf text
  | some model => c.subwordLeaf leaf (model text)

/-- Slots make a tree of a production exactly if they have its fields, in their order. -/
theorem ofSlots_eq_ok_iff {slots : List (Slot Tree)} {t : Tree} :
    Tree.ofSlots p slots = .ok t ↔ p.fields = slots.map Slot.field ∧ t = ⟨p, slots⟩ := by
  unfold Tree.ofSlots
  rw [← firstDifference?_eq_none_iff]
  cases firstDifference? p.fields (slots.map Slot.field) with
  | none => simp [eq_comm]
  | some d => simp

/-- Encoding a text as a leaf never fails, whatever the text and the model. The leaf productions of
a converter have been resolved, so that its slots fit them. -/
theorem encodeLeaf_eq (c : Converter) (leaf : LeafKind) (text : String) :
    c.encodeLeaf leaf text = .ok (c.leafTree leaf text) := by
  have hfits := c.leaf_fits leaf
  unfold encodeLeaf leafTree
  cases c.model with
  | none =>
    rw [mapError_eq_ok_iff, ofSlots_eq_ok_iff]
    exact ⟨hfits.token.fields, rfl⟩
  | some model =>
    rw [mapError_eq_ok_iff, ofSlots_eq_ok_iff]
    exact ⟨hfits.subword.fields, rfl⟩

/-- The texts of a leaf are read exactly if it holds nothing but texts. -/
theorem leafTokens_eq_ok_iff {constructor field : String} {vs : List (Value Tree)}
    {tokens : List String} :
    leafTokens constructor field vs = .ok tokens ↔ vs = tokens.map .token := by
  induction vs generalizing tokens with
  | nil =>
    rw [leafTokens, Except.ok.injEq, eq_comm, eq_comm (a := []), List.map_eq_nil_iff]
  | cons v vs ih =>
    cases v with
    | child t =>
      rw [leafTokens]
      -- A tree among the values is refused, and no list of texts has one.
      refine ⟨nofun, fun h => ?_⟩
      cases tokens <;> exact absurd h (by simp)
    | token text =>
      rw [leafTokens, map_eq_ok_iff]
      constructor
      · rintro ⟨rest, hrest, rfl⟩
        rw [List.map_cons, ← ih.1 hrest]
      · intro h
        obtain _ | ⟨head, rest⟩ := tokens
        · exact absurd h (by simp)
        · obtain ⟨hhead, hrest⟩ := List.cons.inj h
          exact ⟨rest, ih.2 hrest, by rw [Value.token.inj hhead]⟩

/-- A leaf is a node with one slot of texts, whose name says whether it holds the text or its
pieces. -/
theorem decodeLeaf_eq_ok_iff {leaf : LeafKind} {t : Tree} {text : String} :
    c.decodeLeaf leaf t = .ok text ↔
      ∃ field tokens, t.slots = [⟨field, tokens.map .token⟩] ∧
        (t.name = leaf.tokenConstructor ∧ tokens = [text] ∨
          t.name = leaf.subwordConstructor ∧ Subword.join c.settings.marker tokens = text) := by
  have hfits := c.leaf_fits leaf
  have hne := leaf.token_ne_subword
  unfold decodeLeaf
  simp only [hfits.token_name, hfits.subword_name]
  constructor
  · intro h
    split at h
    · next s hslots =>
      obtain ⟨tokens, htokens, h⟩ := bind_eq_ok_iff.1 h
      refine ⟨s.field, tokens, by rw [hslots, ← leafTokens_eq_ok_iff.1 htokens], ?_⟩
      split at h
      · next hname =>
        split at h
        · obtain rfl := Except.ok.inj h
          exact Or.inl ⟨hname, rfl⟩
        · exact absurd h nofun
      · split at h
        · next hname => exact Or.inr ⟨hname, Except.ok.inj h⟩
        · exact absurd h nofun
    · exact absurd h nofun
  · rintro ⟨field, tokens, hslots, h⟩
    rw [hslots]
    -- The name decides which of the two productions it is; they have different names.
    refine bind_eq_ok_iff.2 ⟨tokens, leafTokens_eq_ok_iff.2 rfl, ?_⟩
    rcases h with ⟨hname, rfl⟩ | ⟨hname, rfl⟩
    · rw [if_pos hname]
    · rw [hname, if_neg hne.symm, if_pos rfl]

theorem name_of_decodeLeaf {leaf : LeafKind} {t : Tree} {text : String}
    (h : c.decodeLeaf leaf t = .ok text) :
    t.name = leaf.tokenConstructor ∨ t.name = leaf.subwordConstructor := by
  obtain ⟨_, _, -, hname⟩ := decodeLeaf_eq_ok_iff.1 h
  exact hname.imp And.left And.left

/-- A node with one slot whose name is that of a production with one field is a node of that
production. -/
theorem eq_of_holdsTexts {g : Grammar} {t : Tree} {f' : Field} {k : Cardinality}
    {vs : List (Value Tree)} (hm : t.MirrorsAt g) (hp : p.HoldsTexts g f k)
    (hname : t.name = p.name) (hslots : t.slots = [⟨f', vs⟩]) : t = ⟨p, [⟨f, vs⟩]⟩ := by
  obtain ⟨q, slots⟩ := t
  -- In one grammar the name tells the production, and the production tells the field.
  obtain rfl : q = p := Grammar.production_ext hm.mem hp.mem hname
  obtain rfl : slots = [⟨f', vs⟩] := hslots
  have hfields : [f'] = [f] := hm.fields.trans hp.fields
  rw [(List.cons.inj hfields).1]

/-- **A leaf that is decoded** is a token leaf that holds the text, or a subword leaf whose pieces
spell it. -/
theorem decodeLeaf_cases {leaf : LeafKind} {t : Tree} {text : String}
    (hm : t.MirrorsAt c.grammar) (h : c.decodeLeaf leaf t = .ok text) :
    t = c.tokenLeaf leaf text ∨
      ∃ pieces, Subword.join c.settings.marker pieces = text ∧ t = c.subwordLeaf leaf pieces := by
  have hfits := c.leaf_fits leaf
  obtain ⟨f, tokens, hslots, ⟨hname, rfl⟩ | ⟨hname, hjoin⟩⟩ := decodeLeaf_eq_ok_iff.1 h
  · exact Or.inl (eq_of_holdsTexts hm hfits.token (hname.trans hfits.token_name.symm) hslots)
  · refine Or.inr ⟨tokens, hjoin, ?_⟩
    exact eq_of_holdsTexts hm hfits.subword (hname.trans hfits.subword_name.symm) hslots

/-- A value of an attribute and what the encoder makes of it. -/
inductive Writes (c : Converter) (f : Field) : FieldKind → Attr Node → Value Tree → Prop where
  | composite {n : Node} {t : Tree} (h : c.encode n = .ok t) :
      Writes c f .composite (.node n) (.child t)
  | leaf (leaf : LeafKind) (text : String) :
      Writes c f (.leaf leaf) (.text text) (.child (c.leafTree leaf text))
  | terminal {text constructor : String} {q : Production}
      (h : Terminal.constructor? f.typeName text = some constructor)
      (hq : q ∈ c.grammar.productions) (hname : q.name = constructor) :
      Writes c f .terminal (.text text) (.child (.ofProduction q))

/-- A value of a slot and what the decoder makes of it. -/
inductive Reads (c : Converter) (f : Field) : FieldKind → Value Tree → Attr Node → Prop where
  | composite {t : Tree} {n : Node} (h : c.decode t = .ok n) :
      Reads c f .composite (.child t) (.node n)
  | leaf {leaf : LeafKind} {t : Tree} {text : String} (h : c.decodeLeaf leaf t = .ok text) :
      Reads c f (.leaf leaf) (.child t) (.text text)
  | terminal {t : Tree} {text : String} (h : Terminal.token? f.typeName t.name = some text) :
      Reads c f .terminal (.child t) (.text text)

theorem encodeTerminal_eq_ok_iff {typeName token constructor : String} :
    encodeTerminal typeName token = .ok constructor ↔
      Terminal.constructor? typeName token = some constructor := by
  unfold encodeTerminal
  cases Terminal.constructor? typeName token <;> simp

theorem decodeTerminal_eq_ok_iff {typeName constructor token : String} :
    decodeTerminal typeName constructor = .ok token ↔
      Terminal.token? typeName constructor = some token := by
  unfold decodeTerminal
  cases Terminal.token? typeName constructor <;> simp

/-- The encoder writes a value exactly as `Writes` says. What it looks at is the sort of the value,
which is the same before and after the values inside it have been encoded. -/
theorem encodeValue_eq_ok_iff {kind : FieldKind} {a : Attr Node} {t : Tree} :
    c.encodeValue p f kind (c.encodeAttr a) = .ok t ↔ c.Writes f kind a (.child t) := by
  constructor
  · intro h
    -- Each kind of field takes one sort of value and refuses the others.
    cases kind with
    | composite =>
      cases a with
      | node n =>
        rw [encodeAttr_node] at h
        exact .composite h
      | none | text s => exact absurd h (by simp [encodeAttr, encodeValue])
      | list items => exact absurd h (by simp [encodeAttr_list, encodeValue])
    | leaf leaf =>
      cases a with
      | text s =>
        rw [encodeAttr, encodeValue, encodeLeaf_eq] at h
        obtain rfl := Except.ok.inj h
        exact .leaf leaf s
      | none => exact absurd h (by simp [encodeAttr, encodeValue])
      | node n => exact absurd h (by simp [encodeAttr_node, encodeValue])
      | list items => exact absurd h (by simp [encodeAttr_list, encodeValue])
    | terminal =>
      cases a with
      | text s =>
        rw [encodeAttr, encodeValue] at h
        obtain ⟨constructor, hc, h⟩ := bind_eq_ok_iff.1 h
        obtain ⟨q, hq, h⟩ := bind_eq_ok_iff.1 h
        rw [mapError_eq_ok_iff, Grammar.production_eq_ok_iff] at hq
        obtain rfl := Except.ok.inj h
        exact .terminal (encodeTerminal_eq_ok_iff.1 hc) hq.1 hq.2
      | none => exact absurd h (by simp [encodeAttr, encodeValue])
      | node n => exact absurd h (by simp [encodeAttr_node, encodeValue])
      | list items => exact absurd h (by simp [encodeAttr_list, encodeValue])
  · intro h
    cases h with
    | composite h =>
      rw [encodeAttr_node]
      exact h
    | leaf leaf s =>
      rw [encodeAttr, encodeValue]
      exact encodeLeaf_eq c leaf s
    | terminal h hq hname =>
      rw [encodeAttr, encodeValue]
      refine bind_eq_ok_iff.2 ⟨_, encodeTerminal_eq_ok_iff.2 h, bind_eq_ok_iff.2 ⟨_, ?_, rfl⟩⟩
      exact mapError_eq_ok_iff.2 (Grammar.production_eq_ok_iff.2 ⟨hq, hname⟩)

theorem decodeValue_eq_ok_iff {kind : FieldKind} {v : Value Tree} {a : Attr Node} :
    c.decodeValue p f kind v = .ok a ↔ c.Reads f kind v a := by
  constructor
  · intro h
    cases v with
    | token text => exact absurd h (by simp [decodeValue])
    | child t =>
      cases kind with
      | composite =>
        rw [decodeValue] at h
        obtain ⟨n, hn, rfl⟩ := map_eq_ok_iff.1 h
        exact .composite hn
      | leaf leaf =>
        rw [decodeValue] at h
        obtain ⟨text, ht, rfl⟩ := map_eq_ok_iff.1 h
        exact .leaf ht
      | terminal =>
        rw [decodeValue] at h
        obtain ⟨text, ht, rfl⟩ := map_eq_ok_iff.1 h
        exact .terminal (decodeTerminal_eq_ok_iff.1 ht)
  · intro h
    cases h with
    | composite h => rw [decodeValue]; exact map_eq_ok_iff.2 ⟨_, h, rfl⟩
    | leaf h => rw [decodeValue]; exact map_eq_ok_iff.2 ⟨_, h, rfl⟩
    | terminal h =>
      rw [decodeValue]
      exact map_eq_ok_iff.2 ⟨_, decodeTerminal_eq_ok_iff.2 h, rfl⟩

/-- Neither a missing value nor a list is written. -/
theorem Writes.scalar {kind : FieldKind} {a : Attr Node} {v : Value Tree}
    (h : c.Writes f kind a v) : a.isNone = false ∧ a.list? = none := by
  cases h <;> exact ⟨rfl, rfl⟩

/-- Neither a missing value nor a list is read. -/
theorem Reads.scalar {kind : FieldKind} {v : Value Tree} {a : Attr Node}
    (h : c.Reads f kind v a) : a.isNone = false ∧ a.list? = none := by
  cases h <;> exact ⟨rfl, rfl⟩

/-! ### One slot -/

/-- The value of an attribute and the slot that the encoder makes of it. -/
def WritesSlot (c : Converter) (a : Attr Node) (s : Slot Tree) : Prop :=
  ∃ kind items, c.fieldKind? s.field.typeName = some kind ∧ s.field.cardinality.Holds items a ∧
    List.Forall₂ (c.Writes s.field kind) items s.values

/-- A slot and the value of an attribute that the decoder makes of it. -/
def ReadsSlot (c : Converter) (s : Slot Tree) (a : Attr Node) : Prop :=
  ∃ kind items, c.fieldKind? s.field.typeName = some kind ∧
    List.Forall₂ (c.Reads s.field kind) s.values items ∧ s.field.cardinality.Holds items a

theorem classify_eq_ok_iff {kind : FieldKind} :
    c.classify p f = .ok kind ↔ c.fieldKind? f.typeName = some kind := by
  unfold classify
  cases c.fieldKind? f.typeName <;> simp

/-- The values of a field are written one by one. -/
theorem encodeValues_eq_ok_iff {kind : FieldKind} {items : List (Attr Node)}
    {vs : List (Value Tree)} :
    c.encodeValues p f kind (items.map c.encodeAttr) = .ok vs ↔
      List.Forall₂ (c.Writes f kind) items vs := by
  induction items generalizing vs with
  | nil =>
    rw [List.map_nil, encodeValues, List.forall₂_nil_left_iff, Except.ok.injEq]
    exact eq_comm
  | cons a items ih =>
    rw [List.map_cons, encodeValues, List.forall₂_cons_left_iff]
    constructor
    · intro h
      obtain ⟨t, ht, h⟩ := bind_eq_ok_iff.1 h
      obtain ⟨rest, hrest, h⟩ := bind_eq_ok_iff.1 h
      exact ⟨.child t, rest, encodeValue_eq_ok_iff.1 ht, ih.1 hrest, (Except.ok.inj h).symm⟩
    · rintro ⟨v, rest, hv, hrest, rfl⟩
      -- Whatever the encoder makes of a value is a tree.
      obtain ⟨t, rfl⟩ : ∃ t, v = .child t := by cases hv <;> exact ⟨_, rfl⟩
      refine bind_eq_ok_iff.2 ⟨t, encodeValue_eq_ok_iff.2 hv, ?_⟩
      exact bind_eq_ok_iff.2 ⟨rest, ih.2 hrest, rfl⟩

/-- The encoder finds the values that are encoded already at the places of the attributes. -/
theorem get?_encodeAttr {n : Node} {name : String} {a : Attr Node} (hget : n.get? name = some a) :
    (n.kind.attrIndex? name).bind ((n.attrs.map c.encodeAttr)[·]?) = some (c.encodeAttr a) := by
  unfold Node.get? at hget
  obtain ⟨i, hi, hai⟩ := Option.bind_eq_some_iff.1 hget
  rw [hi, Option.bind_some, List.getElem?_map, hai, Option.map_some]

/-- A field is encoded from the attribute of its name. -/
theorem encodeField_eq_ok_iff {n : Node} {a : Attr Node} {s : Slot Tree}
    (hget : n.get? f.name = some a) (hshape : f.cardinality = .multiple ↔ a.list?.isSome = true) :
    c.encodeField n.kind (n.attrs.map c.encodeAttr) p f = .ok s ↔
      s.field = f ∧ c.WritesSlot a s := by
  unfold encodeField
  rw [get?_encodeAttr hget]
  simp only [bind_eq_ok_iff, classify_eq_ok_iff]
  constructor
  · rintro ⟨kind, hkind, es, hes, vs, hvs, h⟩
    obtain rfl := Except.ok.inj h
    obtain ⟨items, hholds, rfl⟩ := holds_of_elements hshape hes
    exact ⟨rfl, kind, items, hkind, hholds, encodeValues_eq_ok_iff.1 hvs⟩
  · rintro ⟨rfl, kind, items, hkind, hholds, hvs⟩
    -- Nothing is written for a missing value or a list, so `items` has none of them.
    have hscalar : ∀ i ∈ items, i.isNone = false ∧ i.list? = none := by
      intro i hi
      obtain ⟨v, -, hv⟩ := forall₂_exists_right hvs hi
      exact hv.scalar
    exact ⟨kind, hkind, _, elements_of_holds hholds hscalar, s.values,
      encodeValues_eq_ok_iff.2 hvs, rfl⟩

theorem decodeValues_eq_mapM {kind : FieldKind} (vs : List (Value Tree)) :
    c.decodeValues p f kind vs = vs.mapM (c.decodeValue p f kind) := by
  induction vs with
  | nil => rw [decodeValues, List.mapM_nil]; rfl
  | cons v vs ih => rw [decodeValues, List.mapM_cons, ih]; rfl

/-- A slot is decoded under the name of its field, and its values are read one by one. -/
theorem decodeSlot_eq_ok_iff {s : Slot Tree} {named : String × Attr Node} :
    c.decodeSlot p s = .ok named ↔ named.1 = s.field.name ∧ c.ReadsSlot s named.2 := by
  obtain ⟨f, vs⟩ := s
  rw [decodeSlot]
  simp only [bind_eq_ok_iff, classify_eq_ok_iff, decodeValues_eq_mapM, mapM_eq_ok_iff,
    decodeValue_eq_ok_iff, reshape_eq_ok_iff]
  constructor
  · rintro ⟨kind, hkind, items, hitems, a, ha, h⟩
    obtain rfl := Except.ok.inj h
    exact ⟨rfl, kind, items, hkind, hitems, ha⟩
  · rintro ⟨hname, kind, items, hkind, hitems, ha⟩
    exact ⟨kind, hkind, items, hitems, named.2, ha, by rw [← hname]⟩

/-- A slot can be read exactly if something is done with its type, every value can be read, and
there are as many as its cardinality admits. -/
theorem exists_readsSlot_iff {s : Slot Tree} :
    (∃ a, c.ReadsSlot s a) ↔
      ∃ kind, c.fieldKind? s.field.typeName = some kind ∧
        (∀ v ∈ s.values, ∃ a, c.Reads s.field kind v a) ∧
          s.field.cardinality.admits s.values.length = true := by
  constructor
  · rintro ⟨a, kind, items, hkind, hitems, ha⟩
    refine ⟨kind, hkind, fun v hv => ?_, ?_⟩
    · obtain ⟨i, -, hi⟩ := forall₂_exists_right hitems hv
      exact ⟨i, hi⟩
    · rw [hitems.length_eq]
      exact exists_holds_iff.1 ⟨a, ha⟩
  · rintro ⟨kind, hkind, hvalues, hcount⟩
    obtain ⟨items, hitems⟩ := exists_forall₂ hvalues
    rw [hitems.length_eq] at hcount
    obtain ⟨a, ha⟩ := exists_holds_iff.2 hcount
    exact ⟨a, kind, items, hkind, hitems, ha⟩

/-- What is read from a slot has the shape of the attribute that the field agrees with. -/
theorem ReadsSlot.hasShape {s : Slot Tree} {a : Attr Node} {spec : AttrSpec}
    (h : c.ReadsSlot s a) (hagrees : s.field.Agrees spec) : a.HasShape spec := by
  obtain ⟨kind, items, -, hitems, ha⟩ := h
  unfold Attr.HasShape
  -- The decoder makes a list only where the field takes any number of values.
  have scalar : ∀ i ∈ items, i.list?.isSome = false := by
    intro i hi
    obtain ⟨v, -, hv⟩ := forall₂_exists_left hitems hi
    rw [hv.scalar.2, Option.isSome_none]
  have hlist := hagrees.isList
  cases hk : s.field.cardinality with
  | multiple =>
    rw [hk] at ha hlist
    obtain rfl : a = .list items := ha
    exact (hlist.1 rfl).symm
  | single =>
    rw [hk] at ha hlist
    obtain rfl : items = [a] := ha
    rw [scalar a List.mem_cons_self]
    exact (Bool.eq_false_iff.2 fun h => nomatch hlist.2 h).symm
  | optional =>
    rw [hk] at ha hlist
    have hfalse : spec.isList = false := Bool.eq_false_iff.2 fun h => nomatch hlist.2 h
    rcases ha with ⟨rfl, rfl⟩ | rfl
    · exact hfalse.symm
    · rw [scalar a List.mem_cons_self]
      exact hfalse.symm

/-! ### One node -/

theorem encodeFields_eq_mapM {kind : Kind} {attrs : List (Attr Encoded)} (fs : List Field) :
    c.encodeFields kind attrs p fs = fs.mapM (c.encodeField kind attrs p) := by
  induction fs with
  | nil => rw [encodeFields, List.mapM_nil]; rfl
  | cons f fs ih => rw [encodeFields, List.mapM_cons, ih]; rfl

/-- Fields that agree with the attributes of a kind find, in a node of that kind, the values in the
order of the fields. -/
theorem get?_of_agrees {n : Node} {fs : List Field}
    (ha : List.Forall₂ Field.Agrees fs n.kind.attrs) (hn : n.ShapedAt) :
    List.Forall₂
      (fun f a => n.get? f.name = some a ∧ (f.cardinality = .multiple ↔ a.list?.isSome = true))
      fs n.attrs := by
  have hlen := ha.length_eq.trans hn.length_eq
  -- Fields, attributes and values are three lists of one length. The encoder finds a value by name;
  -- since the names agree place by place, that is the value in the place of the field.
  refine List.forall₂_iff_get.2 ⟨hlen, fun i hf hv => ?_⟩
  have hi : i < n.kind.attrs.length := ha.length_eq ▸ hf
  have hagrees := (List.forall₂_iff_get.1 ha).2 i hf hi
  have hshape := (List.forall₂_iff_get.1 hn).2 i hi hv
  simp only [List.get_eq_getElem] at hagrees hshape ⊢
  constructor
  · unfold Node.get?
    rw [hagrees.name, Kind.attrIndex?_getElem hi, Option.bind_some, List.getElem?_eq_getElem hv]
  · rw [hagrees.isList, hshape]

/-- The fields of a production are encoded one by one, each from the value in its place. -/
theorem encodeFields_eq_ok_iff {n : Node} {fs : List Field} {as : List (Attr Node)}
    {slots : List (Slot Tree)}
    (hget : List.Forall₂
      (fun f a => n.get? f.name = some a ∧ (f.cardinality = .multiple ↔ a.list?.isSome = true))
      fs as) :
    c.encodeFields n.kind (n.attrs.map c.encodeAttr) p fs = .ok slots ↔
      slots.map Slot.field = fs ∧ List.Forall₂ c.WritesSlot as slots := by
  rw [encodeFields_eq_mapM, mapM_eq_ok_iff]
  -- Going along fields and values at once, each slot is the one of its field.
  induction hget generalizing slots with
  | nil =>
    rw [List.forall₂_nil_left_iff, List.forall₂_nil_left_iff]
    exact ⟨fun h => ⟨by rw [h, List.map_nil], h⟩, And.right⟩
  | cons hfa _ ih =>
    rw [List.forall₂_cons_left_iff, List.forall₂_cons_left_iff]
    constructor
    · rintro ⟨s, rest, hs, hrest, rfl⟩
      obtain ⟨hfield, hwrites⟩ := (encodeField_eq_ok_iff hfa.1 hfa.2).1 hs
      obtain ⟨hfields, hall⟩ := ih.1 hrest
      exact ⟨by rw [List.map_cons, hfield, hfields], s, rest, hwrites, hall, rfl⟩
    · rintro ⟨hfields, s, rest, hwrites, hall, rfl⟩
      obtain ⟨hfield, hfields⟩ := List.cons.inj hfields
      exact ⟨s, rest, (encodeField_eq_ok_iff hfa.1 hfa.2).2 ⟨hfield, hwrites⟩,
        ih.2 ⟨hfields, hall⟩, rfl⟩

/-- Only a node for whose kind there is a production is encoded. -/
theorem exists_production_of_encode {n : Node} {t : Tree} (h : c.encode n = .ok t) :
    ∃ p, c.grammar.production? n.kind.name = some p := by
  rw [encode_eq, assemble] at h
  cases hp : c.grammar.production? n.kind.name with
  | some p => exact ⟨p, rfl⟩
  | none =>
    rw [hp] at h
    exact absurd h nofun

/-- **Encoding goes field by field.** A node whose kind agrees with the production of the same name
becomes a tree of that production, in which every slot is written from the value in its place. -/
theorem encode_eq_ok_iff {n : Node} {t : Tree} (hp : c.grammar.production? n.kind.name = some p)
    (ha : List.Forall₂ Field.Agrees p.fields n.kind.attrs) (hn : n.ShapedAt) :
    c.encode n = .ok t ↔
      t.production = p ∧ t.slots.map Slot.field = p.fields ∧
        List.Forall₂ c.WritesSlot n.attrs t.slots := by
  rw [encode_eq, assemble, hp]
  simp only [bind_eq_ok_iff, encodeFields_eq_ok_iff (get?_of_agrees ha hn), mapError_eq_ok_iff,
    ofSlots_eq_ok_iff]
  constructor
  · rintro ⟨slots, ⟨hf, hw⟩, -, rfl⟩
    exact ⟨rfl, hf, hw⟩
  · obtain ⟨q, slots⟩ := t
    rintro ⟨rfl, hf, hw⟩
    exact ⟨slots, ⟨hf, hw⟩, hf.symm, rfl⟩

theorem decodeSlots_eq_mapM (slots : List (Slot Tree)) :
    c.decodeSlots p slots = slots.mapM (c.decodeSlot p) := by
  induction slots with
  | nil => rw [decodeSlots, List.mapM_nil]; rfl
  | cons s ss ih => rw [decodeSlots, List.mapM_cons, ih]; rfl

/-- The slots are read one by one, each under the name of its field. -/
theorem decodeSlots_eq_ok_iff {slots : List (Slot Tree)} {named : List (String × Attr Node)} :
    c.decodeSlots p slots = .ok named ↔
      ∃ values, List.Forall₂ c.ReadsSlot slots values ∧
        named = (slots.map (·.field.name)).zip values := by
  rw [decodeSlots_eq_mapM, mapM_eq_ok_iff]
  constructor
  · intro h
    induction h with
    | nil => exact ⟨[], .nil, rfl⟩
    | @cons s e _ _ hs _ ih =>
      obtain ⟨values, hvalues, rfl⟩ := ih
      obtain ⟨hname, hreads⟩ := decodeSlot_eq_ok_iff.1 hs
      refine ⟨e.2 :: values, .cons hreads hvalues, ?_⟩
      rw [List.map_cons, List.zip_cons_cons, ← hname]
  · rintro ⟨values, hvalues, rfl⟩
    induction hvalues with
    | nil => exact .nil
    | cons hs _ ih => exact .cons (decodeSlot_eq_ok_iff.2 ⟨rfl, hs⟩) ih

/-- Only a tree that is named like a kind of node is decoded. -/
theorem exists_kind_of_decode {t : Tree} {n : Node} (h : c.decode t = .ok n) :
    ∃ kind, Kind.ofName? t.name = some kind := by
  obtain ⟨p, slots⟩ := t
  rw [decode] at h
  cases hk : Kind.ofName? p.name with
  | some kind => exact ⟨kind, hk⟩
  | none =>
    rw [hk] at h
    exact absurd h nofun

/-- The slots of a node agree with what the fields of its production agree with. -/
theorem slots_agree {slots : List (Slot Tree)} {fs : List Field} {specs : List AttrSpec}
    (hm : slots.map Slot.field = fs) (ha : List.Forall₂ Field.Agrees fs specs) :
    List.Forall₂ (fun s spec => s.field.Agrees spec) slots specs := by
  rw [← hm, List.forall₂_map_left_iff] at ha
  exact ha

/-- Values that are read from slots have the shapes of the attributes that the slots agree with. -/
theorem hasShape_of_reads {slots : List (Slot Tree)} {specs : List AttrSpec}
    {values : List (Attr Node)}
    (ha : List.Forall₂ (fun s spec => s.field.Agrees spec) slots specs)
    (hvalues : List.Forall₂ c.ReadsSlot slots values) :
    List.Forall₂ Attr.HasShape specs values :=
  forall₂_comp ha.flip hvalues fun _ _ _ hs hreads => hreads.hasShape hs

/-- What is read from slots that agree with the attributes of a kind makes a node of that kind. -/
theorem ofAttrs_of_reads {slots : List (Slot Tree)} {kind : Kind} {values : List (Attr Node)}
    (ha : List.Forall₂ (fun s spec => s.field.Agrees spec) slots kind.attrs)
    (hvalues : List.Forall₂ c.ReadsSlot slots values) :
    Node.ofAttrs kind ((slots.map (·.field.name)).zip values) = .ok ⟨kind, values⟩ := by
  -- The values are passed on under the names of the slots, which are those of the attributes.
  have hnames : slots.map (·.field.name) = kind.attrNames := by
    rw [Kind.attrNames, ← List.forall₂_eq_eq_eq, List.forall₂_map_left_iff,
      List.forall₂_map_right_iff]
    exact ha.imp fun _ _ h => h.name
  -- They have the shapes that the kind declares, so they are taken as they are.
  rw [hnames]
  exact Node.ofAttrs_zip (hasShape_of_reads ha hvalues)

/-- **Decoding goes field by field.** A tree whose slots agree with the kind of the same name
becomes a node of that kind, in which every value is read from the slot in its place. -/
theorem decode_eq_ok_iff {t : Tree} {n : Node} {kind : Kind}
    (hk : Kind.ofName? t.name = some kind)
    (ha : List.Forall₂ Field.Agrees t.production.fields kind.attrs)
    (hm : t.slots.map Slot.field = t.production.fields) :
    c.decode t = .ok n ↔ n.kind = kind ∧ List.Forall₂ c.ReadsSlot t.slots n.attrs := by
  obtain ⟨p, slots⟩ := t
  have hagrees := slots_agree hm ha
  have hmade : ∀ values, List.Forall₂ c.ReadsSlot slots values →
      Node.ofAttrs kind ((slots.map (·.field.name)).zip values) = .ok ⟨kind, values⟩ :=
    fun _ hvalues => ofAttrs_of_reads hagrees hvalues
  rw [decode, show Kind.ofName? p.name = some kind from hk]
  simp only [bind_eq_ok_iff, decodeSlots_eq_ok_iff, mapError_eq_ok_iff]
  constructor
  · rintro ⟨_, ⟨values, hvalues, rfl⟩, h⟩
    rw [hmade values hvalues] at h
    obtain rfl := Except.ok.inj h
    exact ⟨rfl, hvalues⟩
  · obtain ⟨k, values⟩ := n
    rintro ⟨rfl, hvalues⟩
    exact ⟨_, ⟨values, hvalues, rfl⟩, hmade values hvalues⟩

end Converter

end TypedSyntax
