import TypedSyntax.Node.Kind
import TypedSyntax.Terminal

/-!
# The two directions of the terminal tables

A word of a terminal group has a constructor, and a constructor has a spelling. Going from a
constructor to its spelling and back changes nothing (`constructor?_of_token?`). Going from a word
to its constructor and back gives the *canonical* word of the same constructor
(`token?_of_constructor?`), which differs from the word only among the literal types
(`canonical_eq_self`).

Each fact is a check of the finite tables together with the lemma that a search finds only what
stands in a table.
-/

namespace TypedSyntax

namespace Terminal

/-- The spelling of the constructor of a word: the word itself, except that the literal types have
one spelling for each constructor. -/
def canonical (typeName word : String) : String :=
  ((constructor? typeName word).bind (token? typeName)).getD word

/-! ### What a search finds -/

/-- A word has a constructor only if they stand side by side in the table of the group. -/
theorem mem_of_constructor? {typeName word constructor : String}
    (h : constructor? typeName word = some constructor) :
    ∃ group ∈ groups, group.typeName = typeName ∧ (word, constructor) ∈ group.entries := by
  obtain ⟨entries, ht, hl⟩ := Option.bind_eq_some_iff.1 h
  obtain ⟨group, hg, rfl⟩ := Option.map_eq_some_iff.1 ht
  have hname := List.find?_some hg
  refine ⟨group, List.mem_of_find?_eq_some hg, eq_of_beq hname, ?_⟩
  obtain ⟨before, after, hsplit, -⟩ := List.lookup_eq_some_iff.1 hl
  rw [hsplit]
  exact List.mem_append_right _ List.mem_cons_self

/-- A constructor has a spelling only if they stand side by side in the table of spellings. -/
theorem mem_of_token? {typeName word constructor : String}
    (h : token? typeName constructor = some word) :
    ∃ entries, spelling? typeName = some entries ∧ (word, constructor) ∈ entries := by
  obtain ⟨entries, hs, hf⟩ := Option.bind_eq_some_iff.1 h
  obtain ⟨e, he, rfl⟩ := Option.map_eq_some_iff.1 hf
  have hname := List.find?_some he
  obtain rfl : e.2 = constructor := eq_of_beq hname
  exact ⟨entries, hs, List.mem_of_find?_eq_some he⟩

/-- Only the type of a group has spellings. The literal types have a table of their own for them, so
this looks at both. -/
theorem mem_types_of_token? {typeName word constructor : String}
    (h : token? typeName constructor = some word) : typeName ∈ types := by
  obtain ⟨entries, hs, -⟩ := mem_of_token? h
  unfold spelling? at hs
  split at hs
  · next hl => rw [hl]; decide
  · obtain ⟨group, hg, -⟩ := Option.map_eq_some_iff.1 hs
    have hname := List.find?_some hg
    exact List.mem_map.2 ⟨group, List.mem_of_find?_eq_some hg, eq_of_beq hname⟩

theorem isType_of_token? {typeName word constructor : String}
    (h : token? typeName constructor = some word) : isType typeName = true := by
  obtain ⟨group, hg, rfl⟩ := List.mem_map.1 (mem_types_of_token? h)
  exact List.any_eq_true.2 ⟨group, hg, beq_self_eq_true _⟩

/-! ### The tables fit each other -/

-- The three facts below are checked on the tables themselves. Everything else follows from them,
-- whatever the tables hold.

/-- Every constructor of a table has a spelling, which is the word itself outside the literal
types. -/
theorem token?_isSome_of_mem : ∀ group ∈ groups, ∀ e ∈ group.entries,
    (token? group.typeName e.2).isSome ∧
      (group.typeName ≠ literalType → token? group.typeName e.2 = some e.1) := by
  decide +kernel

/-- The spelling of a constructor stands for that constructor. -/
theorem constructor?_of_mem_spelling : ∀ typeName ∈ types, ∀ entries ∈ spelling? typeName,
    ∀ e ∈ entries, constructor? typeName e.1 = some e.2 := by
  decide +kernel

/-- No terminal is named like a kind of node. -/
theorem ofName?_of_mem_spelling : ∀ typeName ∈ types, ∀ entries ∈ spelling? typeName,
    ∀ e ∈ entries, Kind.ofName? e.2 = none := by
  decide +kernel

/-! ### From a word to its constructor and back -/

/-- From a word to its constructor and back comes the canonical word. The constructor has a
spelling, since every constructor of a table has one. -/
theorem token?_of_constructor? {typeName word constructor : String}
    (h : constructor? typeName word = some constructor) :
    token? typeName constructor = some (canonical typeName word) := by
  obtain ⟨group, hg, rfl, he⟩ := mem_of_constructor? h
  obtain ⟨token, ht⟩ := Option.isSome_iff_exists.1 (token?_isSome_of_mem group hg _ he).1
  unfold canonical
  rw [h, Option.bind_some, ht, Option.getD_some]

/-- Outside the literal types every word is canonical: its constructor has no other spelling. -/
theorem canonical_eq_self {typeName : String} (word : String) (hl : typeName ≠ literalType) :
    canonical typeName word = word := by
  unfold canonical
  cases h : constructor? typeName word with
  | none => rfl
  | some constructor =>
    obtain ⟨group, hg, rfl, he⟩ := mem_of_constructor? h
    rw [Option.bind_some, (token?_isSome_of_mem group hg _ he).2 hl, Option.getD_some]

/-! ### From a constructor to its spelling and back -/

/-- From a constructor to its spelling and back comes the same constructor. -/
theorem constructor?_of_token? {typeName word constructor : String}
    (h : token? typeName constructor = some word) :
    constructor? typeName word = some constructor := by
  obtain ⟨entries, hs, he⟩ := mem_of_token? h
  exact constructor?_of_mem_spelling typeName (mem_types_of_token? h) entries hs _ he

/-- Two words of a group have the same constructor exactly if they have the same canonical form. -/
theorem constructor_eq_iff {typeName word word' constructor constructor' : String}
    (h : constructor? typeName word = some constructor)
    (h' : constructor? typeName word' = some constructor') :
    constructor = constructor' ↔ canonical typeName word = canonical typeName word' := by
  have htoken := token?_of_constructor? h
  have htoken' := token?_of_constructor? h'
  constructor
  · rintro rfl
    exact Option.some.inj (htoken.symm.trans htoken')
  · intro heq
    rw [← heq] at htoken'
    exact Option.some.inj
      ((constructor?_of_token? htoken).symm.trans (constructor?_of_token? htoken'))

/-- A constructor with a spelling is no kind of node, so the name of a tree tells terminals from
nodes. -/
theorem ofName?_of_token? {typeName word constructor : String}
    (h : token? typeName constructor = some word) : Kind.ofName? constructor = none := by
  obtain ⟨entries, hs, he⟩ := mem_of_token? h
  exact ofName?_of_mem_spelling typeName (mem_types_of_token? h) entries hs _ he

end Terminal

end TypedSyntax
