import TypedSyntax.Grammar.Printer
import TypedSyntax.Proofs.CGrammar
import TypedSyntax.Proofs.Grammar.Lookup
import TypedSyntax.Proofs.Grammar.Scan
import TypedSyntax.Proofs.Grammar.Sentence

/-!
# Printing and reading grammars

The text of a grammar is meant to be read back as that grammar. This needs names that can be
written, and a constructor in every sum type: declarations with both are `Printable`.

* `Grammar.ofText_render_iff` — a grammar is read back from its own text, with the same types and
  productions, exactly if its declarations are printable; and a grammar that was read from any text
  is read back unchanged.

One half is about the reader alone: all that it can return is printable
(`Declarations.Spelled.printable`). The other half follows the printer from the fields up
(`Field.written`, `Constructor.written`, `SumType.written`, `Declarations.Printable.written`). At
each level, what is printed is scanned as tokens that spell the thing printed (`Written`); where it
may end in a word, this holds only in front of a break, and the printer always puts one there.
-/

namespace TypedSyntax

open Token

/-- What grammar text can declare: everything has a name that can be written, and every sum type has
a constructor. The types of fields are not mentioned, since they are declared. -/
structure Declarations.Printable (d : Declarations) : Prop where
  /-- Types, primitive or not, have names that can be written. -/
  types : ∀ name ∈ d.typeNames, IsName name
  constructors : ∀ c ∈ d.constructors, IsName c.name ∧ ∀ f ∈ c.fields, IsName f.name
  /-- The rules have no way to write a sum type without constructors. -/
  sums : ∀ s ∈ d.sums, s.constructors ≠ []

/-! ### What has been read can be printed -/

section Read

variable {ts : List Token}

theorem NameSpelled.isName {name : String} (h : NameSpelled ts name) (hts : ∀ t ∈ ts, t.Inner) :
    IsName name := by
  cases h with
  | intro ht => exact (hts _ (by simp)).isName ht

theorem Field.Spelled.isName {f : Field} (h : Field.Spelled ts f) (hts : ∀ t ∈ ts, t.Inner) :
    IsName f.name := by
  cases h with
  | intro _ _ hname => exact (hts _ (by simp)).isName hname

theorem Constructor.Spelled.isName {c : Constructor} (h : Constructor.Spelled ts c)
    (hts : ∀ t ∈ ts, t.Inner) : IsName c.name ∧ ∀ f ∈ c.fields, IsName f.name := by
  cases h with
  | bare hname => exact ⟨(hts _ (by simp)).isName hname, by simp⟩
  | empty hname => exact ⟨(hts _ (by simp)).isName hname, by simp⟩
  | fields hname _ hfields =>
    refine ⟨(hts _ (by simp)).isName hname, ?_⟩
    exact hfields.forall_mem (fun t ht => hts t (by simp [ht])) fun _ _ => Field.Spelled.isName

namespace Declarations

/-- What two lists of declarations declare together can be printed if both can. -/
theorem Printable.append {d e : Declarations} (hd : d.Printable) (he : e.Printable) :
    (d.append e).Printable := by
  refine ⟨?_, ?_, List.forall_mem_append.2 ⟨hd.sums, he.sums⟩⟩
  · obtain ⟨hdp, hds⟩ := List.forall_mem_append.1 hd.types
    obtain ⟨hep, hes⟩ := List.forall_mem_append.1 he.types
    simp only [typeNames, Declarations.append, List.map_append, List.forall_mem_append]
    exact ⟨⟨hdp, hep⟩, hds, hes⟩
  · simp only [Declarations.constructors, Declarations.append, List.flatMap_append,
      List.forall_mem_append]
    exact ⟨hd.constructors, he.constructors⟩

/-- What an item declares can be printed. -/
theorem ItemSpelled.printable {d : Declarations} (h : ItemSpelled ts d)
    (hts : ∀ t ∈ ts, t.Inner) : d.Printable := by
  cases h with
  | primitives _ hnames =>
    have hall := hnames.forall_mem (fun t ht => hts t (by simp [ht])) fun _ _ => NameSpelled.isName
    exact ⟨by simpa [typeNames] using hall, by simp [constructors], by simp⟩
  | sum hname _ hconstructors =>
    have hall := hconstructors.forall_mem (fun t ht => hts t (by simp [ht]))
      fun _ _ => Constructor.Spelled.isName
    refine ⟨?_, by simpa [constructors] using hall, by simpa using hconstructors.ne_nil⟩
    simpa [typeNames] using (hts _ (by simp)).isName hname

/-- What a text declares can be printed, whatever it declares twice or not at all. -/
theorem Spelled.printable {d : Declarations} (h : Spelled ts d) (hts : ∀ t ∈ ts, t.Inner) :
    d.Printable := by
  induction h with
  | nil => exact ⟨by simp [typeNames], by simp [constructors], by simp⟩
  | item _ h ih =>
    obtain ⟨hts, hus⟩ := List.forall_mem_append.1 hts
    exact (ih hts).append (h.printable hus)

end Declarations

end Read

/-! ### What can be printed can be read -/

/-- A text spells something in front of every text of a given kind: it is scanned as tokens that
spell it, and they are the same tokens whatever follows. -/
def Written {α : Type} (R : List Token → α → Prop) (before : List Char → Prop) (text : String)
    (x : α) : Prop :=
  ∃ ts, R ts x ∧ ∀ rest us, before rest → Scans rest us → Scans (text.toList ++ rest) (ts ++ us)

/-- A text between two things: it is scanned as one token, and no word goes on into it. -/
structure Gap (text : String) (t : Token) : Prop where
  breaks : ∀ rest, Breaks (text.toList ++ rest)
  scans : ∀ rest us, Scans rest us → Scans (text.toList ++ rest) (t :: us)

theorem gap_comma : Gap ", " (mark .comma ',') where
  breaks _ := breaks_cons.2 (by decide)
  scans _ _ h := .mark_cons rfl (.blank_cons rfl h)

theorem gap_bar : Gap "\n    | " (mark .pipe '|') where
  breaks _ := breaks_cons.2 (by decide)
  scans _ _ h :=
    .blank_cons rfl <| .blank_cons rfl <| .blank_cons rfl <| .blank_cons rfl <| .blank_cons rfl <|
      .mark_cons rfl (.blank_cons rfl h)

/-- A list with gaps is written as its members are. -/
theorem Written.separated {α : Type} {R : List Token → α → Prop} {text : α → String}
    {gap : String} {t : Token} (hgap : Gap gap t) {xs : List α} (hxs : xs ≠ [])
    (h : ∀ x ∈ xs, Written R Breaks (text x) x) :
    Written (Separated t.kind R) Breaks (gap.intercalate (xs.map text)) xs := by
  unfold Written
  rw [String.toList_intercalate, List.map_map]
  -- The gap behind a member is the break that the member needs.
  induction xs with
  | nil => exact absurd rfl hxs
  | cons x xs ih =>
    obtain ⟨hx, hxs⟩ := List.forall_mem_cons.1 h
    obtain ⟨ts, hts, hscan⟩ := hx
    cases xs with
    | nil => exact ⟨ts, .one hts, by simpa using hscan⟩
    | cons y ys =>
      obtain ⟨us, hus, hscan'⟩ := ih (by simp) hxs
      refine ⟨ts ++ t :: us, .cons hts rfl hus, fun rest vs hrest hvs => ?_⟩
      have hnext := hgap.scans _ _ (hscan' rest vs hrest hvs)
      simpa using hscan _ _ (hgap.breaks _) hnext

/-- A name is written as it is, in front of a break. -/
theorem IsName.written {name : String} (h : IsName name) : Written NameSpelled Breaks name name :=
  ⟨[word name], .intro h.word_kind, fun _ _ hrest hus => .name_append h hrest hus⟩

/-- A suffix is written as a mark, or as nothing at all. -/
theorem Cardinality.written (k : Cardinality) : Written Spelled Breaks k.suffix k := by
  cases k with
  | single => exact ⟨[], .single, fun _ _ _ h => h⟩
  | optional => exact ⟨[mark .question '?'], .optional rfl, fun _ _ _ h => .mark_cons rfl h⟩
  | multiple => exact ⟨[mark .star '*'], .multiple rfl, fun _ _ _ h => .mark_cons rfl h⟩

/-- No word goes on into a suffix, nor into what is behind it if there is none. -/
theorem Cardinality.breaks_suffix (k : Cardinality) {rest : List Char} (h : Breaks rest) :
    Breaks (k.suffix.toList ++ rest) := by
  cases k with
  | single => exact h
  | optional => exact breaks_cons.2 (by decide)
  | multiple => exact breaks_cons.2 (by decide)

/-- A field is written as its type, its suffix, a blank and its name. The blank is the break that
the type name needs where there is no suffix. -/
theorem Field.written {f : Field} (htype : IsName f.typeName) (hname : IsName f.name) :
    Written Field.Spelled Breaks f.render f := by
  obtain ⟨suffix, hsuffix, hscan⟩ := f.cardinality.written
  refine ⟨word f.typeName :: (suffix ++ [word f.name]), ?_, fun rest us hrest hus => ?_⟩
  · exact .intro htype.word_kind hsuffix hname.word_kind
  · have hblank : Breaks (' ' :: (f.name.toList ++ rest)) := breaks_cons.2 (by decide)
    have hrender : f.render.toList ++ rest = f.typeName.toList ++
        (f.cardinality.suffix.toList ++ ' ' :: (f.name.toList ++ rest)) := by
      simp [Field.render]
    rw [hrender, List.cons_append, List.append_assoc]
    refine .name_append htype (f.cardinality.breaks_suffix hblank) (hscan _ _ hblank ?_)
    exact .blank_cons rfl (.name_append hname hrest hus)

/-- A constructor is written as its name, with its fields in parentheses if it has any. -/
theorem Constructor.written {c : Constructor} (hname : IsName c.name)
    (hfields : ∀ f ∈ c.fields, IsName f.typeName ∧ IsName f.name) :
    Written Constructor.Spelled Breaks c.render c := by
  obtain ⟨name, fs⟩ := c
  by_cases hfs : fs = []
  · subst hfs
    exact ⟨[word name], .bare hname.word_kind, fun _ _ hrest hus => .name_append hname hrest hus⟩
  · obtain ⟨ts, hts, hscan⟩ := Written.separated gap_comma hfs
      fun f hf => Field.written (hfields f hf).1 (hfields f hf).2
    refine ⟨word name :: mark .leftParen '(' :: (ts ++ [mark .rightParen ')']), ?_,
      fun rest us _ hus => ?_⟩
    · exact .fields hname.word_kind rfl hts rfl
    · have hrender : (Constructor.render ⟨name, fs⟩).toList ++ rest = name.toList ++
          '(' :: ((", ".intercalate (fs.map Field.render)).toList ++ ')' :: rest) := by
        simp [Constructor.render, hfs]
      have hclose : Breaks (')' :: rest) := breaks_cons.2 (by decide)
      have hscan := hscan _ _ hclose (.mark_cons rfl hus)
      rw [hrender, List.cons_append, List.cons_append, List.append_assoc]
      exact .name_append hname (breaks_cons.2 (by decide)) (.mark_cons rfl hscan)

/-- Any text at all: what ends with a line end may stand in front of it. -/
def Anything (_ : List Char) : Prop :=
  True

/-- A sum type is written as its name and its constructors. A line end closes it, so any text may
follow. -/
theorem SumType.written {s : SumType} (hname : IsName s.name) (hs : s.constructors ≠ [])
    (h : ∀ c ∈ s.constructors, Written Constructor.Spelled Breaks c.render c) :
    Written Declarations.ItemSpelled Anything s.render { sums := [s] } := by
  obtain ⟨ts, hts, hscan⟩ := Written.separated gap_bar hs h
  refine ⟨word s.name :: mark .equals '=' :: ts, .sum hname.word_kind rfl hts,
    fun rest us _ hus => ?_⟩
  have hrender : s.render.toList ++ rest = s.name.toList ++ ' ' :: '=' :: ' ' ::
      (("\n    | ".intercalate (s.constructors.map Constructor.render)).toList ++
        '\n' :: rest) := by
    unfold SumType.render
    split
    · next hnil => exact absurd hnil hs
    · simp
  have hline : Breaks ('\n' :: rest) := breaks_cons.2 (by decide)
  rw [hrender]
  refine .name_append hname (breaks_cons.2 (by decide)) ?_
  exact .blank_cons rfl (.mark_cons rfl (.blank_cons rfl (hscan _ _ hline (.blank_cons rfl hus))))

namespace Declarations

/-- Primitive types are written on one line. -/
theorem written_primitives {names : List String} (hne : names ≠ [])
    (h : ∀ name ∈ names, IsName name) :
    Written ItemSpelled Anything ("primitive " ++ ", ".intercalate names ++ "\n")
      { primitives := names } := by
  have hwritten := Written.separated gap_comma hne fun name hname => (h name hname).written
  rw [List.map_id'] at hwritten
  obtain ⟨ts, hts, hscan⟩ := hwritten
  refine ⟨word "primitive" :: ts, .primitives rfl hts, fun rest us _ hus => ?_⟩
  have hrender : ("primitive " ++ ", ".intercalate names ++ "\n").toList ++ rest =
      "primitive".toList ++ ' ' :: ((", ".intercalate names).toList ++ '\n' :: rest) := by
    simp
  have hline : Breaks ('\n' :: rest) := breaks_cons.2 (by decide)
  rw [hrender]
  refine .primitive_append (breaks_cons.2 (by decide)) ?_
  exact .blank_cons rfl (hscan _ _ hline (.blank_cons rfl hus))

/-- One more item is written behind a text. Nothing has to be known about where the two meet, since
a text of whole items is scanned as the same tokens in front of anything. -/
theorem written_append {a b : String} {d e : Declarations} (ha : Written Spelled Anything a d)
    (hb : Written ItemSpelled Anything b e) : Written Spelled Anything (a ++ b) (d.append e) := by
  obtain ⟨ts, hts, hscan⟩ := ha
  obtain ⟨us, hus, hscan'⟩ := hb
  refine ⟨ts ++ us, .item hts hus, fun rest vs hrest hvs => ?_⟩
  simpa using hscan _ _ trivial (hscan' rest vs hrest hvs)

/-- Sum types are written one behind the other, behind whatever has been written before. -/
theorem written_sums {a : String} {d : Declarations} {ss : List SumType}
    (ha : Written Spelled Anything a d)
    (h : ∀ s ∈ ss, Written ItemSpelled Anything s.render { sums := [s] }) :
    Written Spelled Anything (a ++ String.join (ss.map SumType.render))
      (d.append { sums := ss }) := by
  induction ss generalizing a d with
  | nil => simpa [append] using ha
  | cons s ss ih =>
    obtain ⟨hs, hss⟩ := List.forall_mem_cons.1 h
    have hnext := ih (written_append ha hs) hss
    simpa [append, String.join_cons, String.append_assoc] using hnext

theorem Printable.written_sum {d : Declarations} (h : d.Printable) (hd : d.Consistent)
    {s : SumType} (hs : s ∈ d.sums) :
    Written ItemSpelled Anything s.render { sums := [s] } := by
  have hname : s.name ∈ d.typeNames := List.mem_append_right _ (List.mem_map_of_mem hs)
  refine SumType.written (h.types _ hname) (h.sums s hs) fun c hc => ?_
  have hc : c ∈ d.constructors := List.mem_flatMap.2 ⟨s, hs, hc⟩
  obtain ⟨hname, hfields⟩ := h.constructors c hc
  -- The type of a field is declared, so its name is that of a type.
  exact Constructor.written hname fun f hf =>
    ⟨h.types _ (hd.types_declared c hc f hf), hfields f hf⟩

/-- The text of printable declarations spells them: the line of the primitive types, which is left
out if there are none, and then one sum type after the other. -/
theorem Printable.written {d : Declarations} (h : d.Printable) (hd : d.Consistent) :
    Written Spelled Anything d.render d := by
  have hempty : Written Spelled Anything "" {} := ⟨[], .nil, fun _ _ _ h => h⟩
  have hprimitives : Written Spelled Anything
      (if d.primitives.isEmpty then "" else "primitive " ++ ", ".intercalate d.primitives ++ "\n")
      { primitives := d.primitives } := by
    by_cases hne : d.primitives = []
    · simpa [hne] using hempty
    · have hline := written_append hempty
        (written_primitives hne fun name hname => h.types _ (List.mem_append_left _ hname))
      simpa [hne, Declarations.append] using hline
  have hsums := written_sums hprimitives fun s hs => h.written_sum hd hs
  simpa [render, Declarations.append] using hsums

end Declarations

namespace Grammar

variable {g g' : Grammar} {text : String}

/-- A grammar that was read from a text can be printed. -/
theorem printable_of_ofText (h : ofText text = .ok g) : g.declarations.Printable := by
  obtain ⟨ts, hts, hread⟩ := ofText_eq_ok_iff.1 h
  obtain ⟨us, e, rfl, he, hinner⟩ := scanFrom_eq_ok hts
  rw [Declarations.read_eq_ok_iff (fun t ht => (hinner t ht).ne_eof) he] at hread
  exact hread.printable hinner

/-- A grammar that can be printed is read from its text. -/
theorem ofText_render (h : g.declarations.Printable) : ofText g.render = .ok g := by
  obtain ⟨ts, hts, hscan⟩ := h.written g.consistent
  obtain ⟨vs, hvs, hmap⟩ := hscan [] [atEnd {}] trivial .nil {}
  rw [List.append_nil] at hvs
  -- The tokens of the text are those that spell the declarations, up to their places, and one token
  -- that ends them.
  obtain ⟨us, e, rfl, he, hinner⟩ := scanFrom_eq_ok hvs
  rw [List.map_append] at hmap
  obtain ⟨rfl, -⟩ := List.append_inj' hmap rfl
  refine ofText_eq_ok_iff.2 ⟨us ++ [e], hvs, ?_⟩
  rw [Declarations.read, ← Reader.run_unplaced_eq_ok_iff, List.map_append]
  refine (Declarations.read_eq_ok_iff (e := e.unplaced) ?_ he).2 hts
  intro t ht
  obtain ⟨u, hu, rfl⟩ := List.mem_map.1 ht
  exact (hinner u hu).ne_eof

/-- Whether a grammar can be printed shows in its primitive types, its sum types and its
productions. -/
theorem printable_congr (hprimitives : g'.primitives = g.primitives)
    (htypes : g'.typeNames = g.typeNames) (hproductions : g'.productions = g.productions)
    (h : g'.declarations.Printable) : g.declarations.Printable := by
  refine ⟨?_, ?_, ?_⟩
  · have hnames : g'.declarations.typeNames = g.declarations.typeNames :=
      congrArg₂ (· ++ ·) hprimitives htypes
    rw [← hnames]
    exact h.types
  · intro c hc
    obtain ⟨s, hs, hc⟩ := List.mem_flatMap.1 hc
    have hp : ⟨s.name, c⟩ ∈ g'.productions := hproductions ▸ mem_productions.2 ⟨s, hs, rfl, hc⟩
    obtain ⟨s', hs', -, hc'⟩ := mem_productions.1 hp
    exact h.constructors c (List.mem_flatMap.2 ⟨s', hs', hc'⟩)
  · intro s hs
    have hname : s.name ∈ g'.typeNames := htypes ▸ List.mem_map_of_mem hs
    obtain ⟨s', hs', hname⟩ := List.mem_map.1 hname
    obtain ⟨c, hc⟩ := List.exists_mem_of_ne_nil _ (h.sums s' hs')
    have hp : ⟨s.name, c⟩ ∈ g.productions := hproductions ▸ mem_productions.2 ⟨s', hs', hname, hc⟩
    obtain ⟨t, ht, hname', hc⟩ := mem_productions.1 hp
    -- The name of a sum type is its own, so the production belongs to `s` itself.
    obtain rfl := sum_ext ht hs hname'
    exact List.ne_nil_of_mem hc

/-- **Printing and reading.** A grammar is read back from its own text, with the same primitive
types, sum types and productions, exactly if all its names can be written and every sum type has a
constructor. A grammar that was read from a text is therefore read back, and prints the same. -/
theorem ofText_render_iff (g : Grammar) :
    ((∃ g', ofText g.render = .ok g' ∧ g'.primitives = g.primitives ∧
        g'.typeNames = g.typeNames ∧ g'.productions = g.productions) ↔
      g.declarations.Printable) ∧
    ∀ text, ofText text = .ok g →
      ∃ g', ofText g.render = .ok g' ∧ g' = g ∧ g'.render = g.render := by
  refine ⟨⟨?_, ?_⟩, ?_⟩
  · rintro ⟨g', hg', hprimitives, htypes, hproductions⟩
    exact printable_congr hprimitives htypes hproductions (printable_of_ofText hg')
  · intro h
    exact ⟨g, ofText_render h, rfl, rfl, rfl⟩
  · intro text htext
    exact ⟨g, ofText_render (printable_of_ofText htext), rfl, rfl⟩

/-- The bundled grammar is read back from its own text. -/
theorem ofText_render_ofC :
    ofText cGrammarText = .ok ofC ∧
      ∃ g', ofText ofC.render = .ok g' ∧ g' = ofC ∧ g'.render = ofC.render :=
  ⟨cGrammar_eq, (ofText_render_iff ofC).2 cGrammarText cGrammar_eq⟩

end Grammar

end TypedSyntax
