import TypedSyntax.Proofs.CGrammar
import TypedSyntax.Proofs.Converter.Correspondence
import TypedSyntax.Proofs.Tree.Binding

/-!
# Which trees can be decoded

Two things check a tree: binding it to a grammar, which looks at the types and numbers of its
values, and decoding it, which goes by the names of constructors. Neither implies the other over
every grammar.

* `Converter.exists_decode_iff_readable` — over a grammar that passes `Grammar.verify`, a tree that
  was bound and has a composite type is decoded exactly if its composite nodes have no field of
  primitive type and their leaf children are named like leaves (`Tree.ReadableAt`). The check of the
  grammar asks for neither.
* `Converter.exists_decode_iff_bound` — over the bundled grammar the two checks agree on every tree
  whose nodes have the slots of their productions.

Both rest on what can be read from a slot (`Converter.exists_readsSlot_iff`): the proofs go along
the children, and look at a child by the kind of its field.
-/

namespace TypedSyntax

/-- The decoder can read the slots of a composite node, as far as the types do not say so already:
no field has a primitive type, and the children in fields of a leaf type are leaves by name. -/
structure Tree.ReadableAt (g : Grammar) (t : Tree) : Prop where
  fields : ∀ f ∈ t.production.fields, g.isPrimitive f.typeName = false
  leaves : ∀ s ∈ t.slots, ∀ u, Value.child u ∈ s.values → ∀ leaf : LeafKind,
    s.field.typeName = leaf.typeName →
      u.name = leaf.tokenConstructor ∨ u.name = leaf.subwordConstructor

/-- Every composite node can be read. -/
def Tree.Readable (g : Grammar) (t : Tree) : Prop :=
  t.All fun u => g.IsComposite u.production.typeName → u.ReadableAt g

namespace Converter

variable {g : Grammar} {c : Converter} {t : Tree}

/-- A node of composite type can be decoded exactly if each of its slots can be read. -/
theorem exists_decode_iff (hv : g.verify = .ok ()) (hm : t.MirrorsAt g)
    (hc : g.IsComposite t.production.typeName) :
    (∃ n, c.decode t = .ok n) ↔ ∀ s ∈ t.slots, ∃ a, c.ReadsSlot s a := by
  obtain ⟨kind, hk, ha⟩ := Grammar.verify_composite hv hm.mem hc
  constructor
  · rintro ⟨n, hn⟩ s hs
    obtain ⟨a, -, ha⟩ := forall₂_exists_right ((decode_eq_ok_iff hk ha hm.fields).1 hn).2 hs
    exact ⟨a, ha⟩
  · intro h
    obtain ⟨attrs, hattrs⟩ := exists_forall₂ h
    exact ⟨⟨kind, attrs⟩, (decode_eq_ok_iff hk ha hm.fields).2 ⟨rfl, hattrs⟩⟩

/-! ### Well-typed trees that can be read -/

/-- A well-typed node of a production with one primitive field has one slot of texts. -/
theorem slots_of_holdsTexts {p : Production} {f : Field} {k : Cardinality} (ht : t.TypedAt g)
    (hp : p.HoldsTexts g f k) (hname : t.name = p.name) :
    ∃ tokens : List String, t.slots = [⟨f, tokens.map .token⟩] ∧ k.admits tokens.length = true := by
  have hprod : t.production = p := Grammar.production_ext ht.mem hp.mem hname
  have hfields : t.slots.map Slot.field = [f] := by rw [ht.fields, hprod, hp.fields]
  obtain ⟨s, hslots, rfl⟩ := List.map_eq_singleton_iff.1 hfields
  have hs : s ∈ t.slots := hslots ▸ List.mem_cons_self
  have htexts : ∀ v ∈ s.values, ∃ text, v = .token text := by
    intro v hv
    have htype := ht.values s hs v hv
    cases v with
    | token text => exact ⟨text, rfl⟩
    | child u => exact absurd (hp.primitive.symm.trans htype.1) nofun
  obtain ⟨tokens, htokens⟩ := exists_forall₂ htexts
  have hvalues : s.values = tokens.map .token := by
    rw [← List.forall₂_eq_eq_eq, List.forall₂_map_right_iff]
    exact htokens
  refine ⟨tokens, by rw [hslots, ← hvalues], ?_⟩
  rw [← hp.cardinality, ← htokens.length_eq]
  exact ht.counts s hs

/-- A well-typed node that is a leaf by name is decoded as a leaf. -/
theorem exists_decodeLeaf {leaf : LeafKind} (ht : t.TypedAt c.grammar)
    (hname : t.name = leaf.tokenConstructor ∨ t.name = leaf.subwordConstructor) :
    ∃ text, c.decodeLeaf leaf t = .ok text := by
  have hfits := c.leaf_fits leaf
  rcases hname with hname | hname
  · obtain ⟨tokens, hslot, hcount⟩ :=
      slots_of_holdsTexts ht hfits.token (hname.trans hfits.token_name.symm)
    obtain ⟨text, rfl⟩ : ∃ text, tokens = [text] :=
      List.length_eq_one_iff.1 (by simpa [Cardinality.admits] using hcount)
    exact ⟨text, decodeLeaf_eq_ok_iff.2 ⟨_, _, hslot, Or.inl ⟨hname, rfl⟩⟩⟩
  · obtain ⟨tokens, hslot, -⟩ :=
      slots_of_holdsTexts ht hfits.subword (hname.trans hfits.subword_name.symm)
    exact ⟨_, decodeLeaf_eq_ok_iff.2 ⟨_, _, hslot, Or.inr ⟨hname, rfl⟩⟩⟩

/-- A well-typed child can be read, if it is a leaf by name in a field of a leaf type and is decoded
in a field of a composite type. In a field of a terminal type nothing more is needed. -/
theorem exists_reads {f : Field} {kind : FieldKind} {u : Tree} (hv : c.grammar.verify = .ok ())
    (hkind : c.fieldKind? f.typeName = some kind) (hu : u.TypedAt c.grammar)
    (htype : u.production.typeName = f.typeName)
    (hleaf : ∀ leaf : LeafKind, f.typeName = leaf.typeName →
      u.name = leaf.tokenConstructor ∨ u.name = leaf.subwordConstructor)
    (hdecode : c.grammar.IsComposite u.production.typeName → ∃ n, c.decode u = .ok n) :
    ∃ a, c.Reads f kind (.child u) a := by
  cases kind with
  | composite =>
    have hc := fieldKind?_eq_composite_iff.1 hkind
    rw [← htype] at hc
    obtain ⟨n, hn⟩ := hdecode hc
    exact ⟨.node n, .composite hn⟩
  | leaf leaf =>
    have hname := hleaf leaf (fieldKind?_eq_leaf_iff.1 hkind).2
    obtain ⟨text, htext⟩ := exists_decodeLeaf hu hname
    exact ⟨.text text, .leaf htext⟩
  | terminal =>
    have hterm := (fieldKind?_eq_terminal_iff.1 hkind).2
    rw [← htype] at hterm
    -- The spelling is looked up under the type of the field, which is that of the child.
    obtain ⟨-, word, hword⟩ := Grammar.verify_terminal hv hu.mem hterm
    rw [htype] at hword
    exact ⟨.text word, .terminal hword⟩

/-- **A well-typed tree whose composite nodes can be read is decoded.** -/
theorem exists_decode_of_readable (hv : g.verify = .ok ()) (hg : c.grammar = g)
    (ht : t.WellTyped g) (hr : t.Readable g) (hc : g.IsComposite t.production.typeName) :
    ∃ n, c.decode t = .ok n := by
  subst hg
  induction ht with
  | @intro t here deeper ih =>
    rw [exists_decode_iff hv here.toMirrorsAt hc]
    intro s hs
    have hreadable := hr.here hc
    have hfield := here.mem_fields hs
    have hprim := hreadable.fields _ hfield
    -- The type of the field is declared, and it is not primitive.
    obtain ⟨kind, hkind⟩ : ∃ kind, c.fieldKind? s.field.typeName = some kind := by
      refine exists_fieldKind?_iff.2 ?_
      rcases Grammar.isSum_or_isPrimitive here.mem hfield with h | h
      · exact h
      · exact absurd (hprim.symm.trans h) nofun
    refine exists_readsSlot_iff.2 ⟨kind, hkind, fun v hvs => ?_, here.counts s hs⟩
    have htype := here.values s hs v hvs
    cases v with
    | token text => exact absurd (hprim.symm.trans htype) nofun
    | child u =>
      have hu : u ∈ t.subtrees := Tree.mem_subtrees.2 ⟨s, hs, hvs⟩
      refine exists_reads hv hkind (deeper u hu).here htype.2 ?_ ?_
      · exact hreadable.leaves s hs u hvs
      · exact ih u hu (hr.deeper u hu)

/-- A leaf that is decoded holds texts only, so nothing is below it. -/
theorem subtrees_of_decodeLeaf {leaf : LeafKind} {text : String}
    (h : c.decodeLeaf leaf t = .ok text) : t.subtrees = [] := by
  obtain ⟨f, tokens, hslots, -⟩ := decodeLeaf_eq_ok_iff.1 h
  rw [Tree.subtrees, hslots, List.flatMap_singleton, Slot.subtrees, List.filterMap_map,
    List.filterMap_eq_nil_iff]
  exact fun _ _ => rfl

/-- A well-typed child that is read can be read at all depths. -/
theorem Reads.readable {f : Field} {kind : FieldKind} {u : Tree} {a : Attr Node}
    (hv : c.grammar.verify = .ok ()) (hkind : c.fieldKind? f.typeName = some kind)
    (hu : u.TypedAt c.grammar) (htype : u.production.typeName = f.typeName)
    (ih : c.grammar.IsComposite u.production.typeName → ∀ n, c.decode u = .ok n →
      u.Readable c.grammar)
    (h : c.Reads f kind (.child u) a) : u.Readable c.grammar := by
  cases h with
  | @composite _ n h =>
    have hc := fieldKind?_eq_composite_iff.1 hkind
    rw [← htype] at hc
    exact ih hc n h
  | @leaf leaf _ _ h =>
    -- Neither a leaf nor a terminal has a composite type, and nothing is below it.
    refine .intro (fun hc => ?_) fun v hv => ?_
    · exact absurd (htype.trans (fieldKind?_eq_leaf_iff.1 hkind).2) (hc.not_leaf leaf)
    · rw [subtrees_of_decodeLeaf h] at hv
      exact absurd hv List.not_mem_nil
  | terminal h =>
    have hterm := (fieldKind?_eq_terminal_iff.1 hkind).2
    rw [← htype] at hterm
    have hnil := hu.slots_eq_nil (Grammar.verify_terminal hv hu.mem hterm).1
    refine Tree.all_of_slots_eq_nil (fun hc => ?_) hnil
    exact absurd (hc.not_terminal.symm.trans hterm) nofun

/-- The composite nodes of a well-typed tree that is decoded can be read. -/
theorem readable_of_decode (hv : g.verify = .ok ()) (hg : c.grammar = g) (ht : t.WellTyped g)
    (hc : g.IsComposite t.production.typeName) {n : Node} (h : c.decode t = .ok n) :
    t.Readable g := by
  subst hg
  induction ht generalizing n with
  | @intro t here deeper ih =>
    have hslots := (exists_decode_iff hv here.toMirrorsAt hc).1 ⟨n, h⟩
    refine .intro (fun _ => ⟨fun f hf => ?_, fun s hs u hu leaf hleaf => ?_⟩) fun u hu => ?_
    · -- Every field has a slot, and a slot of primitive type would not be read.
      rw [← here.fields] at hf
      obtain ⟨s, hs, rfl⟩ := List.mem_map.1 hf
      obtain ⟨kind, hkind, -⟩ := exists_readsSlot_iff.1 (hslots s hs)
      exact Grammar.not_isPrimitive_of_isSum (exists_fieldKind?_iff.1 ⟨kind, hkind⟩)
    · -- A value in a field of a leaf type is read as a leaf, which goes by its name.
      obtain ⟨kind, hkind, hvalues, -⟩ := exists_readsSlot_iff.1 (hslots s hs)
      have hsum := exists_fieldKind?_iff.1 ⟨kind, hkind⟩
      rw [fieldKind?_eq_leaf_iff.2 ⟨hsum, hleaf⟩] at hkind
      obtain rfl := Option.some.inj hkind
      obtain ⟨a, hreads⟩ := hvalues _ hu
      cases hreads with
      | leaf h => exact name_of_decodeLeaf h
    · obtain ⟨s, hs, hvs⟩ := Tree.mem_subtrees.1 hu
      obtain ⟨kind, hkind, hvalues, -⟩ := exists_readsSlot_iff.1 (hslots s hs)
      obtain ⟨a, hreads⟩ := hvalues _ hvs
      have htype := (here.values s hs _ hvs).2
      exact hreads.readable hv hkind (deeper u hu).here htype fun hcu n hn => ih u hu hn hcu

/-- Over a plain grammar the composite nodes of a well-typed tree can be read. -/
theorem readable_of_wellTyped {root : String} (hp : g.Plain root) (ht : t.WellTyped g) :
    t.Readable g := by
  induction ht with
  | @intro t here deeper ih =>
    refine .intro (fun hc => ⟨?_, fun s hs u hu leaf hleaf => ?_⟩) ih
    · exact hp.fields _ here.mem ((hp.composite _).1 hc)
    · have hmem := (deeper u (Tree.mem_subtrees.2 ⟨s, hs, hu⟩)).here.mem
      exact (hp.leaf _ hmem leaf).1 ((here.values s hs _ hu).2.trans hleaf)

/-- **Decoding what was bound.** Over a grammar that passes the check, a tree of composite type that
was bound is decoded exactly if its composite nodes can be read. -/
theorem exists_decode_iff_readable (hv : g.verify = .ok ()) (hg : c.grammar = g) {table : Table}
    (hbound : Tree.ofTable g table = .ok t) (hc : g.IsComposite t.production.typeName) :
    (∃ n, c.decode t = .ok n) ↔ t.Readable g := by
  have ht := Tree.wellTyped_of_ofTable hbound
  constructor
  · rintro ⟨n, hn⟩
    exact readable_of_decode hv hg ht hc hn
  · intro hr
    exact exists_decode_of_readable hv hg ht hr hc

/-- The tree of a name over the bundled grammar. -/
def nameTree : Tree :=
  .ofName ⟨⟨"IDENT", ⟨"IdentToken", [.one "TOKEN" "token"]⟩⟩,
    [⟨.one "TOKEN" "token", [.token "x"]⟩]⟩

/-- A table of the tree of a name. -/
def nameTable : Table :=
  ⟨#[⟨"ID", [⟨"name", [.child 1]⟩]⟩, ⟨"IdentToken", [⟨"token", [.token "x"]⟩]⟩]⟩

theorem ofTable_nameTable : Tree.ofTable .ofC nameTable = .ok nameTree := by
  rfl

/-- The tree of a name is decoded, since it was bound and can be read. -/
theorem exists_decode_nameTree :
    ∃ n, (Converter.ofC none {}).decode nameTree = .ok n := by
  have hplain := cGrammar_plain cGrammar_eq
  refine (exists_decode_iff_readable hplain.verify rfl ofTable_nameTable ?_).2 ?_
  · exact (hplain.composite _).2 rfl
  · exact readable_of_wellTyped hplain (Tree.wellTyped_of_ofTable ofTable_nameTable)

/-- A grammar that passes the check, although its only composite production has a field of
primitive type. -/
def rawNames : Grammar where
  declarations :=
    { primitives := ["TOKEN"]
      sums := [⟨"EXPR", [⟨"ID", [.one "TOKEN" "name"]⟩]⟩, LeafKind.ident.sumType,
        LeafKind.str.sumType] }
  consistent := Declarations.firstProblem?_eq_none_iff.1 (by decide +kernel)

/-- The tree of a name over that grammar. -/
def rawName (text : String) : Tree :=
  ⟨⟨"EXPR", ⟨"ID", [.one "TOKEN" "name"]⟩⟩, [⟨.one "TOKEN" "name", [.token text]⟩]⟩

/-- The check of a grammar does not see to it that what is bound can be decoded. -/
theorem verify_not_sufficient :
    rawNames.verify = .ok () ∧
      Tree.ofTable rawNames ⟨#[⟨"ID", [⟨"name", [.token "x"]⟩]⟩]⟩ = .ok (rawName "x") ∧
      rawNames.IsComposite (rawName "x").production.typeName ∧
      ∃ c : Converter, c.grammar = rawNames ∧ ∀ n, c.decode (rawName "x") ≠ .ok n := by
  refine ⟨rfl, rfl, ⟨rfl, ?_, rfl⟩, ?_⟩
  · rintro (_ | _) <;> decide
  · have hleaves : ∀ leaf : LeafKind, leaf.sumType ∈ rawNames.sums := by
      rintro (_ | _) <;> simp [rawNames, Grammar.sums]
    refine ⟨.ofSums rawNames hleaves rfl none {}, rfl, fun n h => ?_⟩
    have herror : (Converter.ofSums rawNames hleaves rfl none {}).decode (rawName "x") =
        .error (.unsupportedFieldType "ID" "name" "TOKEN") := by
      rfl
    rw [herror] at h
    exact absurd h nofun

/-! ### Plain grammars -/

/-- A node of a production with one primitive field is well typed if it holds the right number of
texts. -/
theorem typedAt_of_holdsTexts {p : Production} {f : Field} {k : Cardinality} {tokens : List String}
    (hp : p.HoldsTexts g f k) (hcount : k.admits tokens.length = true) :
    Tree.TypedAt g ⟨p, [⟨f, tokens.map .token⟩]⟩ := by
  refine ⟨⟨hp.mem, hp.fields.symm⟩, fun s hs => ?_, fun s hs v hv => ?_⟩
  · rw [List.mem_singleton.1 hs, hp.cardinality, List.length_map]
    exact hcount
  · rw [List.mem_singleton.1 hs] at hv ⊢
    obtain ⟨token, -, rfl⟩ := List.mem_map.1 hv
    exact hp.primitive

/-- A leaf that is decoded is well typed. It is one of the two productions of its leaf type, and
reading it has checked that it holds texts only, and one of them if it is a token. -/
theorem typedAt_of_decodeLeaf {leaf : LeafKind} {text : String} (hm : t.MirrorsAt c.grammar)
    (h : c.decodeLeaf leaf t = .ok text) : t.TypedAt c.grammar := by
  have hfits := c.leaf_fits leaf
  obtain rfl | ⟨tokens, -, rfl⟩ := decodeLeaf_cases hm h
  · have hcount : Cardinality.single.admits [text].length = true := rfl
    exact typedAt_of_holdsTexts hfits.token hcount
  · exact typedAt_of_holdsTexts hfits.subword rfl

/-- Over a plain grammar, a child that is read from a field is well typed and has the type of the
field. -/
theorem Reads.wellTyped {root : String} (hp : c.grammar.Plain root) {f : Field} {kind : FieldKind}
    {u : Tree} {a : Attr Node} (hkind : c.fieldKind? f.typeName = some kind)
    (hm : u.MirrorsAt c.grammar)
    (ih : ∀ n, c.decode u = .ok n → u.WellTyped c.grammar ∧ u.production.typeName = root)
    (h : c.Reads f kind (.child u) a) :
    u.WellTyped c.grammar ∧ u.production.typeName = f.typeName := by
  cases h with
  | @composite _ n h =>
    -- There is only one composite type.
    obtain ⟨hwell, htype⟩ := ih n h
    refine ⟨hwell, htype.trans ?_⟩
    exact ((hp.composite _).1 (fieldKind?_eq_composite_iff.1 hkind)).symm
  | @leaf leaf _ _ h =>
    refine ⟨.intro (typedAt_of_decodeLeaf hm h) fun v hv => ?_, ?_⟩
    · rw [subtrees_of_decodeLeaf h] at hv
      exact absurd hv List.not_mem_nil
    · rw [(hp.leaf _ hm.mem leaf).2 (name_of_decodeLeaf h), (fieldKind?_eq_leaf_iff.1 hkind).2]
  | terminal h =>
    obtain ⟨htype, hfields⟩ := hp.of_token? hm.mem h
    have hnil := hm.slots_eq_nil hfields
    refine ⟨Tree.all_of_slots_eq_nil ⟨hm, ?_, ?_⟩ hnil, htype⟩
    · rw [hnil]
      exact fun s hs => absurd hs List.not_mem_nil
    · rw [hnil]
      exact fun s hs => absurd hs List.not_mem_nil

/-- **Over a plain grammar, a tree that is decoded is well typed.** -/
theorem wellTyped_of_decode {root : String} (hp : g.Plain root) (hg : c.grammar = g)
    (ho : t.Over g) {n : Node} (h : c.decode t = .ok n) :
    t.WellTyped g ∧ t.production.typeName = root := by
  subst hg
  induction ho generalizing n with
  | @intro t here deeper ih =>
    -- The decoder only knows that the root is named like a kind; the grammar tells its type.
    obtain ⟨kind, hk⟩ := exists_kind_of_decode h
    have hc := hp.isComposite here.mem hk
    have hslots := (exists_decode_iff hp.verify here hc).1 ⟨n, h⟩
    have hchild : ∀ s ∈ t.slots, ∀ u, Value.child u ∈ s.values →
        u.WellTyped c.grammar ∧ u.production.typeName = s.field.typeName := by
      intro s hs u hvs
      have hu : u ∈ t.subtrees := Tree.mem_subtrees.2 ⟨s, hs, hvs⟩
      obtain ⟨kind, hkind, hvalues, -⟩ := exists_readsSlot_iff.1 (hslots s hs)
      obtain ⟨a, hreads⟩ := hvalues _ hvs
      exact hreads.wellTyped hp hkind (deeper u hu).here fun n hn => ih u hu hn
    refine ⟨.intro ⟨here, fun s hs => ?_, fun s hs v hv => ?_⟩ fun u hu => ?_,
      (hp.composite _).1 hc⟩
    · obtain ⟨_, -, -, hcount⟩ := exists_readsSlot_iff.1 (hslots s hs)
      exact hcount
    · -- Whatever is read is a child, so no text stands where a tree should.
      obtain ⟨kind, hkind, hvalues, -⟩ := exists_readsSlot_iff.1 (hslots s hs)
      obtain ⟨a, hreads⟩ := hvalues v hv
      obtain ⟨u, rfl⟩ : ∃ u, v = .child u := by cases hreads <;> exact ⟨_, rfl⟩
      refine ⟨Grammar.not_isPrimitive_of_isSum (exists_fieldKind?_iff.1 ⟨kind, hkind⟩), ?_⟩
      exact (hchild s hs u hv).2
    · obtain ⟨s, hs, hvs⟩ := Tree.mem_subtrees.1 hu
      exact (hchild s hs u hvs).1

/-- **Decoding and binding accept the same trees of the bundled grammar.** -/
theorem exists_decode_iff_bound (hg : cGrammar = .ok g) (hc : c.grammar = g) (ho : t.Over g) :
    (∃ n, c.decode t = .ok n) ↔
      Tree.ofTable g t.toTable = .ok t ∧ t.production.typeName = "EXPR" := by
  have hp := cGrammar_plain hg
  constructor
  · rintro ⟨n, hn⟩
    obtain ⟨hwell, htype⟩ := wellTyped_of_decode hp hc ho hn
    exact ⟨Tree.ofTable_toTable hwell, htype⟩
  · rintro ⟨hbound, htype⟩
    have hwell := Tree.wellTyped_of_ofTable hbound
    have hroot := (hp.composite _).2 htype
    exact exists_decode_of_readable hp.verify hc hwell (readable_of_wellTyped hp hwell) hroot

/-- The tree of a name is bound back from its table, since it is decoded. -/
theorem ofTable_toTable_nameTree :
    Tree.ofTable .ofC nameTree.toTable = .ok nameTree ∧
      nameTree.production.typeName = "EXPR" := by
  have hover := (Tree.wellTyped_of_ofTable ofTable_nameTable).over
  have hdecode : (Converter.ofC none {}).decode nameTree = .ok ⟨.id, [.text "x"]⟩ := by
    rfl
  exact (exists_decode_iff_bound cGrammar_eq rfl hover).1 ⟨_, hdecode⟩

end Converter

end TypedSyntax
