import TypedSyntax.Proofs.CGrammar
import TypedSyntax.Proofs.Converter.Correspondence
import TypedSyntax.Proofs.Node.Built

/-!
# Decoding what was encoded

A tree that was encoded from a node decodes to that node again, but for the literal types: several
spellings share a constructor there, and the decoder can only give the canonical one. So what comes
back is the node in *canonical* form (`Node.canonical`), in which every text that stands in a field
of the literal type is replaced by its canonical spelling, at any depth.

A text that is written as subword pieces comes back if the pieces spell it (`Node.RestoredBy`).
Nothing is asked of the texts of other fields, which the model never sees.

* `Converter.decode_encode` — the round trip, over every grammar that passes the checks and in which
  no leaf production is named like a kind of node.

The proof goes along the children. At each node both conversions go field by field
(`Converter.encode_eq_ok_iff`, `Converter.decode_eq_ok_iff`), so all that is left is that whatever
is written for one value is read as its canonical form (`Converter.Writes.reads`).
-/

namespace TypedSyntax

/-- The type of the field for an attribute of a kind. -/
def Grammar.attrType? (g : Grammar) (kind : Kind) (attr : String) : Option String :=
  (g.production? kind.name).bind fun p => (p.fields.find? (·.name == attr)).map Field.typeName

/-! ### Canonical form -/

namespace Node

/-- Whether the texts of an attribute name literal types. -/
def isLiteral (g : Grammar) (kind : Kind) (attr : String) : Bool :=
  g.attrType? kind attr == some Terminal.literalType

mutual

/-- The node with each text in a field of the literal type in its canonical spelling. -/
def canonical (g : Grammar) : Node → Node
  | ⟨kind, attrs⟩ => ⟨kind, canonicalAttrs g kind kind.attrs attrs⟩

/-- The values of declared attributes in canonical form. -/
def canonicalAttrs (g : Grammar) (kind : Kind) : List AttrSpec → List (Attr Node) → List (Attr Node)
  | spec :: specs, a :: as =>
    canonicalAttr g (isLiteral g kind spec.name) a :: canonicalAttrs g kind specs as
  | [], as => as
  | _, [] => []

/-- A value in canonical form. -/
def canonicalAttr (g : Grammar) (literal : Bool) : Attr Node → Attr Node
  | .none => .none
  | .text s => .text (if literal then Terminal.canonical Terminal.literalType s else s)
  | .node ⟨kind, attrs⟩ => .node (canonical g ⟨kind, attrs⟩)
  | .list items => .list (canonicalItems g literal items)

/-- The items of a list in canonical form. -/
def canonicalItems (g : Grammar) (literal : Bool) : List (Attr Node) → List (Attr Node)
  | [] => []
  | a :: as => canonicalAttr g literal a :: canonicalItems g literal as

end

theorem canonical_eq (g : Grammar) (n : Node) :
    n.canonical g = ⟨n.kind, canonicalAttrs g n.kind n.kind.attrs n.attrs⟩ := by
  obtain ⟨kind, attrs⟩ := n
  rw [canonical]

theorem canonicalAttr_node (g : Grammar) (literal : Bool) (n : Node) :
    canonicalAttr g literal (.node n) = .node (n.canonical g) := by
  obtain ⟨kind, attrs⟩ := n
  rw [canonicalAttr]

/-- The text of a field is brought into the canonical form for the type of the field. -/
theorem canonicalAttr_text (g : Grammar) {literal : Bool} {typeName : String}
    (hliteral : literal = (typeName == Terminal.literalType)) (s : String) :
    canonicalAttr g literal (.text s) = .text (Terminal.canonical typeName s) := by
  rw [canonicalAttr, hliteral]
  by_cases htype : typeName = Terminal.literalType
  · rw [if_pos (beq_iff_eq.2 htype), htype]
  · rw [if_neg (mt beq_iff_eq.1 htype), Terminal.canonical_eq_self s htype]

theorem canonicalItems_eq_map (g : Grammar) (literal : Bool) (as : List (Attr Node)) :
    canonicalItems g literal as = as.map (canonicalAttr g literal) := by
  induction as with
  | nil => rw [canonicalItems, List.map_nil]
  | cons a as ih => rw [canonicalItems, List.map_cons, ih]

/-- Where there is one value for each attribute, each is brought into canonical form by itself. -/
theorem canonicalAttrs_eq_zipWith (g : Grammar) (kind : Kind) {specs : List AttrSpec}
    {as : List (Attr Node)} (h : specs.length = as.length) :
    canonicalAttrs g kind specs as =
      List.zipWith (fun spec => canonicalAttr g (isLiteral g kind spec.name)) specs as := by
  induction specs generalizing as with
  | nil =>
    obtain rfl := List.length_eq_zero_iff.1 h.symm
    rw [canonicalAttrs, List.zipWith_nil_left]
  | cons spec specs ih =>
    obtain _ | ⟨a, as⟩ := as
    · exact absurd h (by simp)
    · rw [canonicalAttrs, List.zipWith_cons_cons, ih (Nat.succ.inj h)]

end Node

/-! ### Texts that pieces spell -/

mutual

/-- The texts in a value, left to right, lists flattened. -/
def Attr.textsIn {α : Type} : Attr α → List String
  | .none => []
  | .text s => [s]
  | .node _ => []
  | .list items => Attr.textsInList items

/-- The texts in a list of values. -/
def Attr.textsInList {α : Type} : List (Attr α) → List String
  | [] => []
  | a :: as => a.textsIn ++ Attr.textsInList as

end

theorem Attr.textsInList_eq_flatMap {α : Type} (as : List (Attr α)) :
    textsInList as = as.flatMap textsIn := by
  induction as with
  | nil => rw [textsInList, List.flatMap_nil]
  | cons a as ih => rw [textsInList, ih, List.flatMap_cons]

/-- Every text of a node that stands in a field of leaf type, at any depth, is spelled by the pieces
that a model cuts it into. -/
def Node.RestoredBy (g : Grammar) (model : Subword.Model) (marker : Char) (n : Node) : Prop :=
  n.All fun m => ∀ e ∈ m.namedAttrs, ∀ leaf : LeafKind,
    g.attrType? m.kind e.1 = some leaf.typeName →
      ∀ s ∈ e.2.textsIn, Subword.join marker (model s) = s

/-! ### One value -/

namespace Converter

variable {enc dec : Converter} {f : Field} {kind : FieldKind}

/-- A leaf is read as the text it was written for. -/
theorem decodeLeaf_leafTree {leaf : LeafKind} {text : String}
    (hmodel : ∀ model, enc.model = some model →
      Subword.join dec.settings.marker (model text) = text) :
    dec.decodeLeaf leaf (enc.leafTree leaf text) = .ok text := by
  have hfits := enc.leaf_fits leaf
  rw [decodeLeaf_eq_ok_iff]
  unfold leafTree
  cases hm : enc.model with
  | none => exact ⟨_, [text], rfl, Or.inl ⟨hfits.token_name, rfl⟩⟩
  | some model => exact ⟨_, model text, rfl, Or.inr ⟨hfits.subword_name, hmodel model hm⟩⟩

/-- What is written for a value is read as its canonical form. -/
theorem Writes.reads {g : Grammar} {literal : Bool} {a : Attr Node} {v : Value Tree}
    (hkind : enc.fieldKind? f.typeName = some kind)
    (hliteral : literal = (f.typeName == Terminal.literalType))
    (ih : ∀ m ∈ a.nodes, ∀ t, enc.encode m = .ok t → dec.decode t = .ok (m.canonical g))
    (hmodel : ∀ leaf : LeafKind, f.typeName = leaf.typeName → ∀ text ∈ a.textsIn,
      ∀ model, enc.model = some model → Subword.join dec.settings.marker (model text) = text)
    (h : enc.Writes f kind a v) : dec.Reads f kind v (Node.canonicalAttr g literal a) := by
  cases h with
  | @composite n t h =>
    rw [Node.canonicalAttr_node]
    exact .composite (ih n (by simp [Attr.nodes]) t h)
  | leaf leaf text =>
    have htype : f.typeName = leaf.typeName := (fieldKind?_eq_leaf_iff.1 hkind).2
    -- A leaf type is not the literal type, so its texts are left as they are.
    have hne : f.typeName ≠ Terminal.literalType := htype ▸ leaf.typeName_ne_literalType
    rw [Node.canonicalAttr_text g hliteral, Terminal.canonical_eq_self text hne]
    exact .leaf (decodeLeaf_leafTree (hmodel leaf htype text (by simp [Attr.textsIn])))
  | @terminal text constructor q h hq hname =>
    -- The spelling of the constructor is the canonical form of the text, in every group.
    have htoken := Terminal.token?_of_constructor? h
    rw [← hname] at htoken
    rw [Node.canonicalAttr_text g hliteral]
    exact .terminal htoken

end Converter

/-! ### One slot -/

namespace Cardinality.Holds

variable {k : Cardinality} {items : List (Attr Node)} {a : Attr Node}

/-- The canonical forms of values make up the canonical form of what the values make up. -/
theorem canonical (g : Grammar) (literal : Bool) (h : k.Holds items a) :
    k.Holds (items.map (Node.canonicalAttr g literal)) (Node.canonicalAttr g literal a) := by
  cases k with
  | single =>
    obtain rfl : items = [a] := h
    rfl
  | optional =>
    rcases h with ⟨rfl, rfl⟩ | rfl
    · exact Or.inl ⟨rfl, rfl⟩
    · exact Or.inr rfl
  | multiple =>
    obtain rfl : a = .list items := h
    show Node.canonicalAttr g literal (.list items) = _
    rw [Node.canonicalAttr, Node.canonicalItems_eq_map]

/-- What values make up has the nodes and the texts of the values, in order. -/
theorem eq_flatMap (h : k.Holds items a) :
    a.nodes = items.flatMap Attr.nodes ∧ a.textsIn = items.flatMap Attr.textsIn := by
  have hself : items = [a] →
      a.nodes = items.flatMap Attr.nodes ∧ a.textsIn = items.flatMap Attr.textsIn := by
    rintro rfl
    rw [List.flatMap_singleton, List.flatMap_singleton]
    exact ⟨rfl, rfl⟩
  cases k with
  | single => exact hself h
  | optional =>
    rcases h with ⟨rfl, rfl⟩ | h
    · rw [Attr.nodes, Attr.textsIn]
      exact ⟨rfl, rfl⟩
    · exact hself h
  | multiple =>
    obtain rfl : a = .list items := h
    rw [Attr.nodes, Attr.textsIn]
    exact ⟨Attr.nodesOfList_eq_flatMap items, Attr.textsInList_eq_flatMap items⟩

/-- The nodes and texts of a value are among those of what it makes up. -/
theorem subset {i : Attr Node} (h : k.Holds items a) (hi : i ∈ items) :
    i.nodes ⊆ a.nodes ∧ i.textsIn ⊆ a.textsIn := by
  rw [h.eq_flatMap.1, h.eq_flatMap.2]
  exact ⟨fun n hn => List.mem_flatMap.2 ⟨i, hi, hn⟩, fun s hs => List.mem_flatMap.2 ⟨i, hi, hs⟩⟩

end Cardinality.Holds

namespace Converter

variable {enc dec : Converter}

/-- A slot is read as the canonical form of the value it was written for. -/
theorem WritesSlot.reads {g : Grammar} {literal : Bool} {a : Attr Node} {s : Slot Tree}
    (hg : enc.grammar = dec.grammar)
    (hliteral : literal = (s.field.typeName == Terminal.literalType))
    (ih : ∀ m ∈ a.nodes, ∀ t, enc.encode m = .ok t → dec.decode t = .ok (m.canonical g))
    (hmodel : ∀ leaf : LeafKind, s.field.typeName = leaf.typeName → ∀ text ∈ a.textsIn,
      ∀ model, enc.model = some model → Subword.join dec.settings.marker (model text) = text)
    (h : enc.WritesSlot a s) : dec.ReadsSlot s (Node.canonicalAttr g literal a) := by
  obtain ⟨kind, items, hkind, hholds, hwrites⟩ := h
  refine ⟨kind, items.map (Node.canonicalAttr g literal), ?_, ?_, hholds.canonical g literal⟩
  · rw [← fieldKind?_eq hg]
    exact hkind
  · rw [List.forall₂_map_right_iff]
    refine (forall₂_flip_mem hwrites).imp fun v i hi => ?_
    obtain ⟨hnodes, htexts⟩ := hholds.subset hi.1
    exact hi.2.reads hkind hliteral (fun m hm => ih m (hnodes hm))
      fun leaf htype text ht => hmodel leaf htype text (htexts ht)

/-! ### The round trip -/

/-- The type of the field in a place is that of the attribute in the same place. -/
theorem attrType?_of_agrees {g : Grammar} {kind : Kind} {p : Production} {f : Field}
    {spec : AttrSpec} (hp : g.production? kind.name = some p) (hf : f ∈ p.fields)
    (h : f.Agrees spec) : g.attrType? kind spec.name = some f.typeName := by
  have hmem := (Grammar.production?_eq_some_iff.1 hp).1
  unfold Grammar.attrType?
  rw [hp, Option.bind_some, ← h.name, Grammar.find?_field hmem hf, Option.map_some]

/-- **The round trip.** Let no leaf production of a grammar that passes the check be named like a
kind of node, and let the pieces of every text in a leaf field spell it, if texts are written as
pieces. Then a node that can be encoded comes back from its tree in canonical form. -/
theorem decode_encode {g : Grammar} (hv : g.verify = .ok ())
    (hleaf : ∀ p ∈ g.productions, ∀ leaf : LeafKind, p.typeName = leaf.typeName →
      Kind.ofName? p.name = none)
    {enc dec : Converter} (henc : enc.grammar = g) (hdec : dec.grammar = g) {n : Node}
    (hn : n.Built)
    (hmodel : ∀ model, enc.model = some model → n.RestoredBy g model dec.settings.marker)
    {t : Tree} (h : enc.encode n = .ok t) : dec.decode t = .ok (n.canonical g) := by
  -- The induction is along the children, for which the shape is enough.
  have hshape := hn.wellShaped
  clear hn
  induction hshape generalizing t with
  | @intro n here _ ih =>
    -- The production of the kind agrees with it, so encoding went field by field.
    obtain ⟨p, hp⟩ := exists_production_of_encode h
    have hp' : g.production? n.kind.name = some p := henc ▸ hp
    have ha := Grammar.agrees_of_production? hv hleaf hp'
    obtain ⟨rfl, hfields, hslots⟩ := (encode_eq_ok_iff hp ha here).1 h
    -- The tree carries the name of the kind, so decoding it goes field by field as well.
    have hk : Kind.ofName? t.name = some n.kind := by
      rw [Tree.name, (Grammar.production?_eq_some_iff.1 hp').2, Kind.ofName?_name]
    rw [decode_eq_ok_iff hk ha hfields, Node.canonical_eq]
    refine ⟨rfl, ?_⟩
    -- Slots, attributes and values stand side by side: compare them place by place.
    have hagrees := slots_agree hfields ha
    rw [Node.canonicalAttrs_eq_zipWith g n.kind here.length_eq]
    refine List.forall₂_iff_get.2 ⟨?_, fun i hs hz => ?_⟩
    · rw [List.length_zipWith, ← here.length_eq, Nat.min_self, hagrees.length_eq]
    have hspec : i < n.kind.attrs.length := hagrees.length_eq ▸ hs
    have hattr : i < n.attrs.length := here.length_eq ▸ hspec
    have hslot := (List.forall₂_iff_get.1 hslots).2 i hattr hs
    have hfield : t.slots[i].field ∈ t.production.fields :=
      hfields ▸ List.mem_map_of_mem (List.getElem_mem hs)
    -- The type that `canonical` and `RestoredBy` go by is the one that the converters go by.
    have htype := attrType?_of_agrees hp' hfield ((List.forall₂_iff_get.1 hagrees).2 i hs hspec)
    simp only [List.get_eq_getElem] at hslot htype
    rw [List.get_eq_getElem, List.get_eq_getElem, List.getElem_zipWith]
    refine hslot.reads (henc.trans hdec.symm) ?_ (fun m hm u hu => ?_)
      fun leaf hl text ht M hM => ?_
    · rw [Node.isLiteral, htype]
      rfl
    · have hchild : m ∈ n.children := Node.mem_children.2 ⟨_, List.getElem_mem hattr, hm⟩
      exact ih m hchild (fun M hM => (hmodel M hM).deeper m hchild) hu
    · refine (hmodel M hM).here (n.kind.attrs[i].name, n.attrs[i]) ?_ leaf ?_ text ht
      · exact Node.getElem_mem_namedAttrs hspec hattr
      · rw [htype, hl]

/-- A model that cuts one number into its digits. -/
def digits : Subword.Model :=
  .table [("42", ["\u25814", "2"])]

/-- Over the bundled grammar, a constant whose value is written as two pieces comes back with its
value, and with the canonical name of its type. -/
theorem decode_encode_constant :
    ∃ t, (Converter.ofC (some digits) {}).encode (.constant "long int" "42") = .ok t ∧
      (Converter.ofC none {}).decode t = .ok (.constant "int" "42") := by
  have hplain := cGrammar_plain cGrammar_eq
  have hencode : ((Converter.ofC (some digits) {}).encode (.constant "long int" "42")).isOk := by
    decide +kernel
  have hcanonical : (Node.constant "long int" "42").canonical .ofC = .constant "int" "42" := by
    decide +kernel
  cases h : (Converter.ofC (some digits) {}).encode (.constant "long int" "42") with
  | error e => rw [h] at hencode; exact absurd hencode nofun
  | ok t =>
    refine ⟨t, rfl, hcanonical ▸ decode_encode hplain.verify hplain.ofName?_leaf rfl rfl
      (.constant _ _) (fun model hm => ?_) h⟩
    obtain rfl := Option.some.inj hm
    refine .intro (fun e he leaf => ?_) nofun
    revert e
    cases leaf <;> decide +kernel

end Converter

end TypedSyntax
