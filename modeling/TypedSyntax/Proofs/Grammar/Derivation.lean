import TypedSyntax.Proofs.Grammar.Sentence

/-!
# Derivations of grammar text

The rules of grammar text derive lists of tokens. A derivation is kept here as data, and a rule is
the type of its derivations: a sequence is a product, an alternative is a sum, an optional part is
an option, and a repeated part is a list. Every token has the kind that its rule asks for, so all
values of these types are derivations. The tokens of a derivation are those in it, from left to
right (`Phrase.tokens`), and each rule has a function that tells what its derivations say.

* `Derivation.spelled_iff` — a list of tokens spells declarations exactly if it has a derivation
  that says them.
* `Derivation.tokens_injective` — no list of tokens has two derivations.

No token ends an item or a constructor, so where one of them stops depends on the token behind it.
A phrase is therefore looked at in front of other tokens, of which the first must be of a kind that
may follow (`Delimited`). The kinds that may start a phrase and those that may follow it never
overlap where the rules leave a choice, and this is checked rule by rule.
-/

namespace TypedSyntax

/-! ### Phrases -/

/-- Derivations, with the tokens that they derive. -/
class Phrase (α : Type) where
  tokens : α → List Token

open Phrase

/-- A token of a given kind. -/
abbrev TokenOf (kind : TokenKind) : Type :=
  { t : Token // t.kind = kind }

section Tokens

variable {kind : TokenKind} {α β : Type} [Phrase α] [Phrase β]

instance : Phrase (TokenOf kind) where
  tokens t := [t.1]

instance : Phrase (α × β) where
  tokens p := tokens p.1 ++ tokens p.2

instance : Phrase (α ⊕ β) where
  tokens
    | .inl x => tokens x
    | .inr y => tokens y

instance : Phrase (Option α) where
  tokens
    | none => []
    | some x => tokens x

instance : Phrase (List α) where
  tokens xs := xs.flatMap tokens

theorem tokens_cons (x : α) (xs : List α) : tokens (x :: xs) = tokens x ++ tokens xs :=
  List.flatMap_cons

end Tokens

/-- At least one phrase, with a token of a given kind between each two. -/
abbrev Chain (sep : TokenKind) (α : Type) : Type :=
  α × List (TokenOf sep × α)

/-- The members of a chain, in order. -/
def Chain.members {sep : TokenKind} {α : Type} (c : Chain sep α) : List α :=
  c.1 :: c.2.map Prod.snd

/-- A type name, optionally `*` or `?`, and a field name. -/
abbrev FieldPhrase : Type :=
  TokenOf .identifier × Option (TokenOf .star ⊕ TokenOf .question) × TokenOf .identifier

def FieldPhrase.field : FieldPhrase → Field
  | (type, none, name) => ⟨name.1.text, type.1.text, .single⟩
  | (type, some (.inl _), name) => ⟨name.1.text, type.1.text, .multiple⟩
  | (type, some (.inr _), name) => ⟨name.1.text, type.1.text, .optional⟩

/-- A name, and optionally a pair of parentheses, in which there may be fields separated by
commas. -/
abbrev ConstructorPhrase : Type :=
  TokenOf .identifier ×
    Option (TokenOf .leftParen × Option (Chain .comma FieldPhrase) × TokenOf .rightParen)

def ConstructorPhrase.constructor : ConstructorPhrase → Constructor
  | (name, none) => ⟨name.1.text, []⟩
  | (name, some (_, none, _)) => ⟨name.1.text, []⟩
  | (name, some (_, some fields, _)) => ⟨name.1.text, fields.members.map FieldPhrase.field⟩

/-- The word `primitive` and names separated by commas, or a name, `=` and constructors separated
by bars. -/
abbrev ItemPhrase : Type :=
  TokenOf .primitive × Chain .comma (TokenOf .identifier) ⊕
    TokenOf .identifier × TokenOf .equals × Chain .pipe ConstructorPhrase

def ItemPhrase.declarations : ItemPhrase → Declarations
  | .inl (_, names) => { primitives := names.members.map (·.1.text) }
  | .inr (name, _, constructors) =>
    { sums := [⟨name.1.text, constructors.members.map ConstructorPhrase.constructor⟩] }

/-- Any number of items. -/
abbrev Derivation : Type :=
  List ItemPhrase

/-- What the items declare, in their order. -/
def Derivation.declarations (p : Derivation) : Declarations where
  primitives := p.flatMap (·.declarations.primitives)
  sums := p.flatMap (·.declarations.sums)

/-! ### What is spelled is derived -/

section Spelled

variable {ts : List Token}

/-- A name is spelled by one token, which is its derivation. -/
theorem nameSpelled_iff (ts : List Token) (name : String) :
    NameSpelled ts name ↔ ∃ p : TokenOf .identifier, tokens p = ts ∧ p.1.text = name := by
  constructor
  · rintro ⟨ht⟩
    exact ⟨⟨_, ht⟩, rfl, rfl⟩
  · rintro ⟨p, rfl, rfl⟩
    exact .intro p.2

/-- If members are spelled as they are derived, chains are. Lists of names, of fields and of
constructors are all chains, so this is proved once for any members. -/
theorem Chain.separated_iff {sep : TokenKind} {α β : Type} [Phrase α]
    {R : List Token → β → Prop} {f : α → β}
    (hR : ∀ ts x, R ts x ↔ ∃ a : α, tokens a = ts ∧ f a = x) {xs : List β} :
    Separated sep R ts xs ↔ ∃ c : Chain sep α, tokens c = ts ∧ c.members.map f = xs := by
  constructor
  · intro h
    -- The relation adds a member at the end, and in the chain it becomes the last link.
    induction h with
    | one h =>
      obtain ⟨a, rfl, rfl⟩ := (hR _ _).1 h
      exact ⟨(a, []), by simp [tokens], by simp [members]⟩
    | @more _ _ t _ _ _ ht h ih =>
      obtain ⟨⟨first, links⟩, rfl, rfl⟩ := ih
      obtain ⟨a, rfl, rfl⟩ := (hR _ _).1 h
      exact ⟨(first, links ++ [(⟨t, ht⟩, a)]), by simp [tokens], by simp [members]⟩
  · rintro ⟨⟨a, links⟩, rfl, rfl⟩
    -- A chain is a first member and links, so the other way round the spelling grows at its front.
    induction links generalizing a with
    | nil =>
      have ha : R (tokens a) (f a) := (hR _ _).2 ⟨a, rfl, rfl⟩
      simpa [tokens, members] using Separated.one ha
    | cons link links ih =>
      have ha : R (tokens a) (f a) := (hR _ _).2 ⟨a, rfl, rfl⟩
      exact .cons ha link.1.2 (ih link.2)

/-- A field is spelled as it is derived, with one case for each suffix of its type name. -/
theorem FieldPhrase.spelled_iff (ts : List Token) (f : Field) :
    Field.Spelled ts f ↔ ∃ p : FieldPhrase, tokens p = ts ∧ p.field = f := by
  constructor
  · intro h
    cases h with
    | intro htype hsuffix hname =>
      cases hsuffix with
      | single => exact ⟨(⟨_, htype⟩, none, ⟨_, hname⟩), rfl, rfl⟩
      | optional ht => exact ⟨(⟨_, htype⟩, some (.inr ⟨_, ht⟩), ⟨_, hname⟩), rfl, rfl⟩
      | multiple ht => exact ⟨(⟨_, htype⟩, some (.inl ⟨_, ht⟩), ⟨_, hname⟩), rfl, rfl⟩
  · rintro ⟨⟨type, _ | star | question, name⟩, rfl, rfl⟩
    · exact .intro type.2 .single name.2
    · exact .intro type.2 (.multiple star.2) name.2
    · exact .intro type.2 (.optional question.2) name.2

/-- A constructor is spelled as it is derived: it has no parentheses, nothing between them, or a
chain of fields. -/
theorem ConstructorPhrase.spelled_iff (ts : List Token) (c : Constructor) :
    Constructor.Spelled ts c ↔ ∃ p : ConstructorPhrase, tokens p = ts ∧ p.constructor = c := by
  constructor
  · intro h
    cases h with
    | bare hname => exact ⟨(⟨_, hname⟩, none), rfl, rfl⟩
    | empty hname hleft hright =>
      exact ⟨(⟨_, hname⟩, some (⟨_, hleft⟩, none, ⟨_, hright⟩)), rfl, rfl⟩
    | fields hname hleft hfields hright =>
      obtain ⟨fields, rfl, rfl⟩ := (Chain.separated_iff FieldPhrase.spelled_iff).1 hfields
      exact ⟨(⟨_, hname⟩, some (⟨_, hleft⟩, some fields, ⟨_, hright⟩)), rfl, rfl⟩
  · rintro ⟨⟨name, _ | ⟨left, _ | fields, right⟩⟩, rfl, rfl⟩
    · exact .bare name.2
    · exact .empty name.2 left.2 right.2
    · have hfields := (Chain.separated_iff FieldPhrase.spelled_iff).2 ⟨fields, rfl, rfl⟩
      exact .fields name.2 left.2 hfields right.2

/-- An item is spelled as it is derived, be it primitive types or a sum type. -/
theorem ItemPhrase.spelled_iff {d : Declarations} :
    Declarations.ItemSpelled ts d ↔ ∃ p : ItemPhrase, tokens p = ts ∧ p.declarations = d := by
  constructor
  · intro h
    cases h with
    | primitives hword hnames =>
      obtain ⟨names, rfl, rfl⟩ := (Chain.separated_iff nameSpelled_iff).1 hnames
      exact ⟨.inl (⟨_, hword⟩, names), rfl, rfl⟩
    | sum hname hequals hconstructors =>
      obtain ⟨cs, rfl, rfl⟩ := (Chain.separated_iff ConstructorPhrase.spelled_iff).1 hconstructors
      exact ⟨.inr (⟨_, hname⟩, ⟨_, hequals⟩, cs), rfl, rfl⟩
  · rintro ⟨⟨word, names⟩ | ⟨name, equals, cs⟩, rfl, rfl⟩
    · have hnames := (Chain.separated_iff nameSpelled_iff).2 ⟨names, rfl, rfl⟩
      exact .primitives word.2 hnames
    · have hcs := (Chain.separated_iff ConstructorPhrase.spelled_iff).2 ⟨cs, rfl, rfl⟩
      exact .sum name.2 equals.2 hcs

/-- Items behind a text that spells declarations. A text is spelled from its front and takes items
at its end, so what stands before the items is kept general. -/
theorem Declarations.Spelled.append {d : Declarations} (h : Spelled ts d) (p : Derivation) :
    Spelled (ts ++ tokens p) (d.append p.declarations) := by
  induction p generalizing ts d with
  | nil => simpa [tokens, Derivation.declarations, Declarations.append] using h
  | cons item items ih =>
    have hitem : ItemSpelled (tokens item) item.declarations :=
      ItemPhrase.spelled_iff.2 ⟨item, rfl, rfl⟩
    simpa [tokens, Derivation.declarations, Declarations.append] using ih (.item h hitem)

/-- A list of tokens spells what its derivations say. The relation forgets the tokens that make no
difference, such as a pair of parentheses with nothing in it, and a derivation does not. -/
theorem Derivation.spelled_iff {d : Declarations} :
    Declarations.Spelled ts d ↔ ∃ p : Derivation, tokens p = ts ∧ p.declarations = d := by
  constructor
  · intro h
    induction h with
    | nil => exact ⟨[], rfl, rfl⟩
    | item _ h ih =>
      obtain ⟨items, rfl, rfl⟩ := ih
      obtain ⟨item, rfl, rfl⟩ := ItemPhrase.spelled_iff.1 h
      refine ⟨items ++ [item], ?_, ?_⟩
      · simp [tokens]
      · simp [declarations, Declarations.append]
  · rintro ⟨p, rfl, rfl⟩
    exact Declarations.Spelled.nil.append p

end Spelled

/-! ### What may start a phrase and what may follow it -/

/-- There is no token, or the first one is of one of the given kinds. -/
def Starts (kinds : List TokenKind) (ts : List Token) : Prop :=
  ∀ t ∈ ts.head?, t.kind ∈ kinds

theorem starts_cons {kinds : List TokenKind} {t : Token} {ts : List Token} :
    Starts kinds (t :: ts) ↔ t.kind ∈ kinds := by
  simp [Starts]

theorem Starts.mono {kinds kinds' : List TokenKind} {ts : List Token} (h : Starts kinds ts)
    (hkinds : kinds ⊆ kinds') : Starts kinds' ts :=
  fun t ht => hkinds (h t ht)

/-- A phrase has tokens, and the first one is of one of the given kinds. -/
def Begins (α : Type) [Phrase α] (first : List TokenKind) : Prop :=
  ∀ x : α, ∃ t ts, tokens x = t :: ts ∧ t.kind ∈ first

/-- In front of tokens that may follow, a phrase can be told from its tokens, and so can what
follows. Two phrases with what follows each are compared, since from the tokens alone it is not
known where a phrase stops. -/
def Delimited (α : Type) [Phrase α] (follow : List TokenKind) : Prop :=
  ∀ ⦃x y : α⦄ ⦃r s : List Token⦄, Starts follow r → Starts follow s →
    tokens x ++ r = tokens y ++ s → x = y ∧ r = s

section Rules

variable {kind sep : TokenKind} {α β : Type} [Phrase α] [Phrase β]
  {first first' follow follow' : List TokenKind} {ts : List Token}

/-- A token starts with itself. -/
theorem begins_token : Begins (TokenOf kind) [kind] :=
  fun t => ⟨t.1, [], rfl, by simp [t.2]⟩

/-- A sequence starts as its first part does, which is never missing. -/
theorem Begins.prod (h : Begins α first) : Begins (α × β) first := by
  rintro ⟨x, y⟩
  obtain ⟨t, ts, hx, ht⟩ := h x
  exact ⟨t, ts ++ tokens y, by simp [tokens, hx], ht⟩

/-- An alternative starts as either of its parts does. -/
theorem Begins.sum (hα : Begins α first) (hβ : Begins β first') :
    Begins (α ⊕ β) (first ++ first') := by
  rintro (x | y)
  · obtain ⟨t, ts, hx, ht⟩ := hα x
    exact ⟨t, ts, hx, List.mem_append_left _ ht⟩
  · obtain ⟨t, ts, hy, ht⟩ := hβ y
    exact ⟨t, ts, hy, List.mem_append_right _ ht⟩

theorem Begins.starts (h : Begins α first) (hfirst : first ⊆ first') (x : α) (ts : List Token) :
    Starts first' (tokens x ++ ts) := by
  obtain ⟨t, us, hx, ht⟩ := h x
  rw [hx, List.cons_append, starts_cons]
  exact hfirst ht

/-- What starts a phrase cannot stand where only other kinds may. -/
theorem Begins.not_starts (h : Begins α first) (hdisjoint : ∀ k ∈ first, k ∉ follow) (x : α)
    (ts : List Token) : ¬ Starts follow (tokens x ++ ts) := by
  obtain ⟨t, us, hx, ht⟩ := h x
  rw [hx, List.cons_append, starts_cons]
  exact hdisjoint _ ht

/-- A repeated part may be missing, so that what follows it comes first. -/
theorem Begins.starts_list (h : Begins α first) (hfirst : first ⊆ first')
    (hts : Starts first' ts) : ∀ xs : List α, Starts first' (tokens xs ++ ts)
  | [] => hts
  | x :: xs => by
    rw [tokens_cons, List.append_assoc]
    exact h.starts hfirst x _

/-- A single token is as long as any other, whatever follows it. -/
theorem delimited_token : Delimited (TokenOf kind) follow := by
  intro x y r s _ _ h
  obtain ⟨htoken, rfl⟩ := List.cons.inj h
  exact ⟨Subtype.ext htoken, rfl⟩

/-- A sequence is told part by part. What may follow its first part is either the start of the
second one or, if that has no tokens, what follows the whole. -/
theorem Delimited.prod (hα : Delimited α follow') (hβ : Delimited β follow)
    (hnext : ∀ (y : β) (r : List Token), Starts follow r → Starts follow' (tokens y ++ r)) :
    Delimited (α × β) follow := by
  rintro ⟨x, y⟩ ⟨x', y'⟩ r s hr hs h
  simp only [tokens, List.append_assoc] at h
  obtain ⟨rfl, hrest⟩ := hα (hnext y r hr) (hnext y' s hs) h
  obtain ⟨rfl, rfl⟩ := hβ hr hs hrest
  exact ⟨rfl, rfl⟩

/-- A token is told from its tokens whatever follows. -/
theorem Delimited.token_prod (hβ : Delimited β follow) : Delimited (TokenOf kind × β) follow := by
  rintro ⟨x, y⟩ ⟨x', y'⟩ r s hr hs h
  obtain ⟨htoken, hrest⟩ := List.cons.inj h
  obtain rfl : x = x' := Subtype.ext htoken
  obtain ⟨rfl, rfl⟩ := hβ hr hs hrest
  exact ⟨rfl, rfl⟩

/-- The first token tells which alternative it is. -/
theorem Delimited.sum (hα : Delimited α follow) (hβ : Delimited β follow) (ha : Begins α first)
    (hb : Begins β first') (hdisjoint : ∀ k ∈ first, k ∉ first') : Delimited (α ⊕ β) follow := by
  rintro (x | x) (y | y) r s hr hs h
  · obtain ⟨rfl, rfl⟩ := hα hr hs h
    exact ⟨rfl, rfl⟩
  · -- Two alternatives with the same tokens would start with the same token.
    have hy := hb.starts (List.Subset.refl _) y s
    exact absurd (h ▸ hy) (ha.not_starts hdisjoint x r)
  · have hx := hb.starts (List.Subset.refl _) x r
    exact absurd (h ▸ hx) (ha.not_starts hdisjoint y s)
  · obtain ⟨rfl, rfl⟩ := hβ hr hs h
    exact ⟨rfl, rfl⟩

/-- The next token tells whether an optional part is there. -/
theorem Delimited.option (hα : Delimited α follow) (ha : Begins α first)
    (hdisjoint : ∀ k ∈ first, k ∉ follow) : Delimited (Option α) follow := by
  rintro (_ | x) (_ | y) r s hr hs h
  · exact ⟨rfl, h⟩
  -- If the part is there in one phrase only, its first token is what follows the other one.
  · exact absurd (h ▸ hr) (ha.not_starts hdisjoint y s)
  · exact absurd (h ▸ hs) (ha.not_starts hdisjoint x r)
  · obtain ⟨rfl, rfl⟩ := hα hr hs h
    exact ⟨rfl, rfl⟩

/-- The next token tells whether a repeated part goes on. Behind one member there may be another
one or what follows them all, so members have to be told apart in front of both. -/
theorem Delimited.list (hα : Delimited α (first ++ follow)) (ha : Begins α first)
    (hdisjoint : ∀ k ∈ first, k ∉ follow) : Delimited (List α) follow := by
  intro xs ys r s hr hs h
  induction xs generalizing ys with
  | nil =>
    cases ys with
    | nil => exact ⟨rfl, h⟩
    | cons y ys =>
      -- What follows the empty list would have to start as a member does.
      obtain rfl : r = tokens y ++ (tokens ys ++ s) := by
        rwa [tokens_cons, List.append_assoc] at h
      exact absurd hr (ha.not_starts hdisjoint y _)
  | cons x xs ih =>
    rw [tokens_cons, List.append_assoc] at h
    cases ys with
    | nil =>
      obtain rfl : s = tokens x ++ (tokens xs ++ r) := h.symm
      exact absurd hs (ha.not_starts hdisjoint x _)
    | cons y ys =>
      -- The first members agree, and the induction hypothesis has the others.
      rw [tokens_cons, List.append_assoc] at h
      have hnext : ∀ (zs : List α) (ts : List Token), Starts follow ts →
          Starts (first ++ follow) (tokens zs ++ ts) := fun zs ts hts =>
        ha.starts_list (List.subset_append_left _ _) (hts.mono (List.subset_append_right _ _)) zs
      obtain ⟨rfl, hrest⟩ := hα (hnext xs r hr) (hnext ys s hs) h
      obtain ⟨rfl, rfl⟩ := ih hrest
      exact ⟨rfl, rfl⟩

/-- A chain goes on as long as separators come. So a separator may follow a member, but it must not
follow the chain. -/
theorem Delimited.chain (hα : Delimited α (sep :: follow)) (hsep : sep ∉ follow) :
    Delimited (Chain sep α) follow := by
  have hbegins : Begins (TokenOf sep × α) [sep] := begins_token.prod
  have hlinks : Delimited (List (TokenOf sep × α)) follow :=
    Delimited.list hα.token_prod hbegins (by simpa using hsep)
  refine hα.prod hlinks fun links r hr => ?_
  exact hbegins.starts_list (by simp) (hr.mono (List.subset_cons_self _ _)) links

end Rules

/-! ### Derivations are unique -/

/-- A field ends with its name, so anything may follow it. -/
theorem FieldPhrase.delimited {follow : List TokenKind} : Delimited FieldPhrase follow := by
  -- In front of the name there is a star, a question mark, or nothing.
  have hsuffix : Delimited (Option (TokenOf .star ⊕ TokenOf .question)) [.identifier] :=
    (delimited_token.sum delimited_token begins_token begins_token (by decide)).option
      (begins_token.sum begins_token) (by decide)
  refine (hsuffix.prod delimited_token fun name r _ => ?_).token_prod
  exact begins_token.starts (by simp) name r

/-- A constructor may do without parentheses, so no opening one may follow it. -/
theorem ConstructorPhrase.delimited {follow : List TokenKind} (h : .leftParen ∉ follow) :
    Delimited ConstructorPhrase follow := by
  -- The closing parenthesis is neither a comma nor the start of a field, so the fields end there.
  have hchain : Delimited (Chain .comma FieldPhrase) [.rightParen] :=
    FieldPhrase.delimited.chain (by decide)
  have hbegins : Begins (Chain .comma FieldPhrase) [.identifier] := begins_token.prod.prod
  have hfields : Delimited (Option (Chain .comma FieldPhrase)) [.rightParen] :=
    hchain.option hbegins (by decide)
  have hparens : Delimited
      (TokenOf .leftParen × Option (Chain .comma FieldPhrase) × TokenOf .rightParen) follow :=
    (hfields.prod delimited_token fun right r _ =>
      begins_token.starts (by simp) right r).token_prod
  exact (hparens.option begins_token.prod (by simpa using h)).token_prod

/-- An item stops where another one starts, and at the end of the text. -/
theorem ItemPhrase.delimited : Delimited ItemPhrase [.primitive, .identifier] := by
  -- Neither of the two kinds is a comma, a bar or an opening parenthesis.
  have hnames : Delimited (Chain .comma (TokenOf .identifier)) [.primitive, .identifier] :=
    delimited_token.chain (by decide)
  have hconstructors : Delimited (Chain .pipe ConstructorPhrase) [.primitive, .identifier] :=
    (ConstructorPhrase.delimited (by decide)).chain (by decide)
  exact hnames.token_prod.sum hconstructors.token_prod.token_prod begins_token.prod
    begins_token.prod (by decide)

theorem ItemPhrase.begins : Begins ItemPhrase [.primitive, .identifier] :=
  begins_token.prod.sum begins_token.prod

/-- **No list of tokens has two derivations.** A text is a list of items with nothing behind it,
and each item stops where the next one starts. -/
theorem Derivation.tokens_injective {p q : Derivation} (h : tokens p = tokens q) : p = q := by
  have hitems : Delimited Derivation [] := ItemPhrase.delimited.list ItemPhrase.begins (by decide)
  have hend : Starts [] [] := by simp [Starts]
  exact (hitems hend hend (by simpa using h)).1

end TypedSyntax
