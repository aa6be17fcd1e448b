import TypedSyntax.Proofs.Grammar.RoundTrip
import TypedSyntax.Proofs.Text.Quoted
import TypedSyntax.Proofs.Tree.Typing
import TypedSyntax.Tree.Printer

/-!
# The text of a tree shows all of it

A text in a tree may hold parentheses, blanks and quotation marks, or be the text of another tree.
No two trees over a grammar that was read from a text have the same text all the same:

* `Tree.render_unambiguous` — trees with the same text are the same tree, whatever their slots hold.

The proof goes through the text from the left and is about texts with something behind them, since
that is where the parts of a tree stand: a part can be told from what follows it (`Tree.Delimited`).
For a list of values this is so because each of them has a blank in front and the list has a closing
parenthesis behind it; a child and a raw text differ in their first character. For a node it is the
name that has to be told from what follows, and here it matters that names are words. The name then
gives the production, and with it the fields of the slots, so their names need not be looked at.
-/

namespace TypedSyntax

namespace Tree

variable {g : Grammar} {s t : Tree} {x y : List Char}

/-- The text of a tree can be told from what follows it, among all trees over a grammar. -/
def Delimited (g : Grammar) (s : Tree) : Prop :=
  ∀ t : Tree, t.Over g → ∀ x y, s.write x = t.write y → s = t ∧ x = y

/-! ### Values and slots -/

/-- The text of a tree starts with a parenthesis, and so not like a raw text. -/
theorem write_ne_quotedChars (t : Tree) (cs : List Char) :
    t.write x ≠ quotedChars '\x22' cs ++ y := by
  obtain ⟨p, slots⟩ := t
  rw [write]
  intro h
  exact absurd (List.cons.inj h).1 (by decide)

theorem writeValue_inj {v w : Value Tree} (hv : ∀ s, v = .child s → s.Delimited g)
    (hw : ∀ t, w = .child t → t.Over g) (h : writeValue v x = writeValue w y) : v = w ∧ x = y := by
  cases v with
  | child s =>
    rw [writeValue] at h
    cases w with
    | child t =>
      rw [writeValue] at h
      obtain ⟨rfl, hrest⟩ := hv s rfl t (hw t rfl) x y h
      exact ⟨rfl, hrest⟩
    | token b =>
      rw [writeValue] at h
      exact absurd h (write_ne_quotedChars s b.toList)
  | token a =>
    rw [writeValue] at h
    cases w with
    | child t =>
      rw [writeValue] at h
      exact absurd h.symm (write_ne_quotedChars t a.toList)
    | token b =>
      rw [writeValue] at h
      obtain ⟨htext, hrest⟩ := quotedChars_append_inj isMark_doubleQuote h
      exact ⟨congrArg Value.token (String.toList_inj.1 htext), hrest⟩

/-- The values of a slot can be told from what follows the parenthesis behind them. -/
theorem writeValues_inj {vs ws : List (Value Tree)} (hv : ∀ s, .child s ∈ vs → s.Delimited g)
    (hw : ∀ t, .child t ∈ ws → t.Over g)
    (h : writeValues vs (')' :: x) = writeValues ws (')' :: y)) : vs = ws ∧ x = y := by
  -- A blank says that there is one more value, and the parenthesis that there is none.
  induction vs generalizing ws with
  | nil =>
    cases ws with
    | nil => exact ⟨rfl, (List.cons.inj h).2⟩
    | cons w ws => exact absurd (List.cons.inj h).1 (by decide)
  | cons v vs ih =>
    cases ws with
    | nil => exact absurd (List.cons.inj h).1 (by decide)
    | cons w ws =>
      rw [writeValues, writeValues] at h
      obtain ⟨rfl, hnext⟩ := writeValue_inj (fun s hs => hv s (by simp [hs]))
        (fun t ht => hw t (by simp [ht])) (List.cons.inj h).2
      obtain ⟨rfl, hrest⟩ := ih (fun s hs => hv s (List.mem_cons_of_mem _ hs))
        (fun t ht => hw t (List.mem_cons_of_mem _ ht)) hnext
      exact ⟨rfl, hrest⟩

/-- Slots of the same fields can be told from what follows the parenthesis behind them. -/
theorem writeSlots_inj {ss ts : List (Slot Tree)}
    (hs : ∀ slot ∈ ss, ∀ s, .child s ∈ slot.values → s.Delimited g)
    (ht : ∀ slot ∈ ts, ∀ t, .child t ∈ slot.values → t.Over g)
    (hfields : ss.map Slot.field = ts.map Slot.field)
    (h : writeSlots ss (')' :: x) = writeSlots ts (')' :: y)) : ss = ts ∧ x = y := by
  induction ss generalizing ts with
  | nil =>
    obtain rfl := List.map_eq_nil_iff.1 hfields.symm
    exact ⟨rfl, (List.cons.inj h).2⟩
  | cons s ss ih =>
    cases ts with
    | nil => exact absurd hfields nofun
    | cons t ts =>
      obtain ⟨f, vs⟩ := s
      obtain ⟨f', ws⟩ := t
      obtain ⟨rfl, hmap⟩ : f = f' ∧ ss.map Slot.field = ts.map Slot.field :=
        List.cons.inj hfields
      obtain ⟨hvs, hss⟩ := List.forall_mem_cons.1 hs
      obtain ⟨hws, hts⟩ := List.forall_mem_cons.1 ht
      rw [writeSlots, writeSlots, writeSlot, writeSlot] at h
      -- Both slots have the same name in front, so the difference could only be in the values.
      have hvalues := List.append_cancel_left (List.cons.inj (List.cons.inj h).2).2
      obtain ⟨rfl, hnext⟩ := writeValues_inj hvs hws hvalues
      obtain ⟨rfl, hrest⟩ := ih hss hts hmap hnext
      exact ⟨rfl, hrest⟩

/-! ### Nodes -/

/-- No name goes on into the slots of a node. -/
theorem breaks_writeSlots (slots : List (Slot Tree)) : Breaks (writeSlots slots (')' :: x)) := by
  cases slots with
  | nil => exact breaks_cons.2 (by decide)
  | cons s ss =>
    rw [writeSlots, writeSlot]
    exact breaks_cons.2 (by decide)

theorem isWordChar_of_mem_name (hg : g.declarations.Printable) {p : Production}
    (hp : p ∈ g.productions) : ∀ c ∈ p.name.toList, isWordChar c = true := by
  obtain ⟨s, hs, -, hc⟩ := Grammar.mem_productions.1 hp
  have hname : IsName p.name := (hg.constructors _ (List.mem_flatMap.2 ⟨s, hs, hc⟩)).1
  obtain ⟨c, cs, htext, hc, hcs⟩ := hname.shape
  rw [htext]
  exact List.forall_mem_cons.2
    ⟨isWordChar_iff.2 (.inl hc), fun d hd => isWordChar_iff.2 (hcs d hd)⟩

/-- A tree whose children can be told from what follows them can be told, too. -/
theorem Over.delimited_step (hg : g.declarations.Printable) (hs : s.Over g)
    (ih : ∀ u ∈ s.subtrees, u.Delimited g) : s.Delimited g := by
  intro t ht x y h
  have hds : ∀ slot ∈ s.slots, ∀ u, .child u ∈ slot.values → u.Delimited g :=
    fun slot hslot u hu => ih u (mem_subtrees.2 ⟨slot, hslot, hu⟩)
  have hot : ∀ slot ∈ t.slots, ∀ u, .child u ∈ slot.values → u.Over g :=
    fun slot hslot u hu => ht.deeper u (mem_subtrees.2 ⟨slot, hslot, hu⟩)
  obtain ⟨hp, hfs⟩ := hs.here
  obtain ⟨hq, hft⟩ := ht.here
  obtain ⟨p, ss⟩ := s
  obtain ⟨q, ts⟩ := t
  rw [write, write] at h
  -- The name ends at the first character that is not part of a word.
  obtain ⟨hname, hslots⟩ := append_inj_of_stop (isWordChar_of_mem_name hg hp)
    (isWordChar_of_mem_name hg hq) (breaks_writeSlots ss) (breaks_writeSlots ts)
    (List.cons.inj h).2
  obtain rfl : p = q := Grammar.production_ext hp hq (String.toList_inj.1 hname)
  obtain ⟨rfl, hrest⟩ := writeSlots_inj hds hot (hfs.trans hft.symm) hslots
  exact ⟨rfl, hrest⟩

theorem Over.delimited (hg : g.declarations.Printable) (hs : s.Over g) : s.Delimited g := by
  induction hs with
  | intro here deeper ih => exact Over.delimited_step hg (.intro here deeper) ih

/-- **Rendering is unambiguous.** Two trees over a grammar that was read from a text are the same if
their texts are, whatever their slots hold: any texts, any number of values, values of any type. -/
theorem render_unambiguous {text : String} (hg : Grammar.ofText text = .ok g) (hs : s.Over g)
    (ht : t.Over g) (h : s.render = t.render) : s = t := by
  have hwrite : s.write [] = t.write [] := String.ofList_inj.1 h
  exact (hs.delimited (Grammar.printable_of_ofText hg) t ht [] [] hwrite).1

/-- The production of a block in the bundled grammar. -/
def blockProduction : Production :=
  ⟨"EXPR", "Compound", [.many "EXPR" "block_items"]⟩

/-- A block that holds texts where statements belong. -/
def blockOf (texts : List String) : Tree :=
  ⟨blockProduction, [⟨.many "EXPR" "block_items", texts.map .token⟩]⟩

theorem over_blockOf (texts : List String) : (blockOf texts).Over .ofC := by
  have hmem : blockProduction ∈ Grammar.ofC.productions := by decide +kernel
  refine .intro ⟨hmem, rfl⟩ fun t ht => ?_
  obtain ⟨slot, hslot, ht⟩ := mem_subtrees.1 ht
  obtain rfl := List.mem_singleton.1 hslot
  obtain ⟨text, -, htext⟩ := List.mem_map.1 ht
  exact absurd htext nofun

/-- A block of two texts has another text than a block of one that looks like the two, and a block
to which that one is added has the same. -/
theorem render_unambiguous_block :
    Grammar.ofText cGrammarText = .ok .ofC ∧
      (blockOf ["a", "b"]).render ≠ (blockOf ["a\" \"b"]).render ∧
      ∃ t, (ofProduction blockProduction).add? "block_items" (.token "a\" \"b") = some (.ok t) ∧
        t.Over .ofC ∧ t.render = (blockOf ["a\" \"b"]).render ∧ t = blockOf ["a\" \"b"] := by
  refine ⟨cGrammar_eq, fun h => ?_, _, rfl, over_blockOf ["a\" \"b"], rfl, ?_⟩
  · have heq := render_unambiguous cGrammar_eq (over_blockOf _) (over_blockOf _) h
    exact absurd heq (by simp [blockOf])
  · exact render_unambiguous cGrammar_eq (over_blockOf ["a\" \"b"]) (over_blockOf _) rfl

end Tree

end TypedSyntax
