import TypedSyntax.Proofs.Grammar.Derivation

/-!
# Which token the reader refuses

A *sentence* is a list of tokens that has a derivation, and a *beginning* is what a sentence may
start with. The reader takes one token after the other and never looks ahead, so it can only be
right about the first token that fits no sentence if each stage can still be brought to an end.

* `Declarations.read_exact` — the reader accepts exactly the sentences and returns what the one
  derivation says; a token that it refuses is the first one with which no sentence goes on; and
  where the text stops too early, it is a beginning that is not yet a sentence.

`Stage.completion` lists, for each stage, tokens that end the item at hand. With it the beginnings
are the lists of tokens that the reader gets through (`isBeginning_iff`), just as the sentences are
those after which it may stop (`isSentence_iff`).
-/

namespace TypedSyntax

open Phrase

/-- A list of tokens that the rules derive. -/
def IsSentence (ts : List Token) : Prop :=
  ∃ p : Derivation, tokens p = ts

/-- A list of tokens with which a sentence starts. -/
def IsBeginning (ts : List Token) : Prop :=
  ∃ us, IsSentence (ts ++ us)

/-! ### Every stage can be brought to an end -/

/-- Tokens that end the item at hand. They are a shortest end from the stage on, and their texts do
not matter. -/
def Stage.completion : Stage → List Token
  | item | primitiveDone | constructorName .. | constructorDone _ => []
  | primitive | constructor _ => [name]
  | sumName _ => [⟨.equals, {}, "="⟩, name]
  | fields .. | fieldDone .. => [closing]
  | nextField .. => [name, name, closing]
  | fieldType .. | fieldName .. => [name, closing]
where
  name : Token := ⟨.identifier, {}, "x"⟩
  closing : Token := ⟨.rightParen, {}, ")"⟩

namespace Reader

variable {r : Reader} {ts : List Token}

/-- Behind the completion of its stage the reader may stop. The declarations and names it has so
far are never looked at, so each stage is run as it stands. -/
theorem exists_close?_completion (r : Reader) :
    ∃ r' d, r.after? r.stage.completion = some r' ∧ r'.close? = some d := by
  obtain ⟨d, stage⟩ := r
  cases stage <;> exact ⟨_, _, rfl, rfl⟩

/-- The tokens after which the reader may stop are the sentences. Both are the tokens that spell
declarations. -/
theorem isSentence_iff :
    IsSentence ts ↔ ∃ r d, after? {} ts = some r ∧ r.close? = some d := by
  constructor
  · rintro ⟨p, hp⟩
    obtain ⟨r, hr, hclose⟩ := after?_spelled (Derivation.spelled_iff.2 ⟨p, hp, rfl⟩)
    exact ⟨r, _, hr, hclose⟩
  · rintro ⟨r, d, hr, hclose⟩
    have hspelled := ((Reached.item .nil).after hr).spelled hclose
    obtain ⟨p, hp, -⟩ := Derivation.spelled_iff.1 hspelled
    exact ⟨p, hp⟩

/-- The tokens that the reader gets through are the beginnings. -/
theorem isBeginning_iff : IsBeginning ts ↔ ∃ r, after? {} ts = some r := by
  constructor
  · -- A reader that gets through a sentence gets through the start of it.
    rintro ⟨us, hus⟩
    obtain ⟨r, d, hr, -⟩ := isSentence_iff.1 hus
    rw [after?_append] at hr
    obtain ⟨r', hr', -⟩ := Option.bind_eq_some_iff.1 hr
    exact ⟨r', hr'⟩
  · -- Wherever the reader is, the completion of its stage makes a sentence of the tokens so far.
    rintro ⟨r, hr⟩
    obtain ⟨r', d, hr', hclose⟩ := exists_close?_completion r
    refine ⟨r.stage.completion, isSentence_iff.2 ⟨r', d, ?_, hclose⟩⟩
    rw [after?_append, hr, Option.bind_some, hr']

/-! ### How a run ends -/

/-- How a run that returns an error ends. The error says where it was and what the reader would have
taken there, which depends on the stage only. -/
inductive Fails (r : Reader) (ts : List Token) : TextError → Prop where
  /-- Some token cannot be taken. -/
  | token {before after : List Token} {t : Token} {r' : Reader} (hts : ts = before ++ t :: after)
      (hbefore : r.after? before = some r') (ht : r'.step? t = none) :
      Fails r ts
        (.unexpectedToken t.text r'.stage.expected t.position.line t.position.column)
  /-- All tokens are taken, but the reader may not stop. -/
  | stop {r' : Reader} (hts : r.after? ts = some r') (hclose : r'.close? = none) :
      Fails r ts (.unexpectedEnd r'.stage.expected)

/-- A failure behind a token that the reader takes is a failure of the whole run. -/
theorem Fails.cons {t : Token} {next : Reader} {error : TextError} (ht : r.step? t = some next)
    (h : next.Fails ts error) : r.Fails (t :: ts) error := by
  cases h with
  | @token before after u _ hts hbefore hstep =>
    have hsplit : t :: ts = t :: before ++ u :: after := by
      rw [hts, List.cons_append]
    refine .token hsplit ?_ hstep
    rw [after?_cons, ht, Option.bind_some, hbefore]
  | stop hts hclose =>
    refine .stop ?_ hclose
    rw [after?_cons, ht, Option.bind_some, hts]

/-- Every error of a run over tokens and the end token tells how the run ended. -/
theorem fails_of_run {e : Token} {error : TextError} (hts : ∀ t ∈ ts, t.kind ≠ .eof)
    (he : e.kind = .eof) (h : r.run (ts ++ [e]) = .error error) : r.Fails ts error := by
  induction ts generalizing r with
  | nil =>
    -- At the end token only the stage decides.
    simp only [List.nil_append, run, he, if_true, run.finish] at h
    cases hclose : r.close? with
    | some d => simp [hclose] at h
    | none =>
      obtain rfl : TextError.unexpectedEnd r.stage.expected = error := by
        simpa [hclose] using h
      exact .stop rfl hclose
  | cons t ts ih =>
    obtain ⟨ht, hts⟩ := List.forall_mem_cons.1 hts
    simp only [List.cons_append, run, ht, if_false] at h
    cases hstep : r.step? t with
    | none =>
      obtain rfl := Except.error.inj (by simpa only [hstep] using h)
      have hsplit : t :: ts = [] ++ t :: ts := rfl
      exact .token hsplit rfl hstep
    | some next =>
      exact (ih hts (by simpa only [hstep] using h)).cons hstep

end Reader

/-- **Reading is exact.** The reader accepts exactly the sentences, and returns what the one
derivation says. If it refuses a token, a sentence may start with the tokens before it but not with
the token, too; and if it refuses the end, more tokens are needed for a sentence. -/
theorem Declarations.read_exact {ts : List Token} {e : Token} (hts : ∀ t ∈ ts, t.kind ≠ .eof)
    (he : e.kind = .eof) :
    (∀ d, read (ts ++ [e]) = .ok d ↔
      ∃ p : Derivation, tokens p = ts ∧ (∀ q : Derivation, tokens q = ts → q = p) ∧
        p.declarations = d) ∧
    ∀ error, read (ts ++ [e]) = .error error →
      ¬ IsSentence ts ∧
      ((∃ before t after expected, ts = before ++ t :: after ∧
          IsBeginning before ∧ ¬ IsBeginning (before ++ [t]) ∧
          error = .unexpectedToken t.text expected t.position.line t.position.column) ∨
        ∃ us expected, us ≠ [] ∧ IsSentence (ts ++ us) ∧ error = .unexpectedEnd expected) := by
  have haccept : ∀ d, read (ts ++ [e]) = .ok d ↔
      ∃ p : Derivation, tokens p = ts ∧ p.declarations = d := fun d => by
    rw [read_eq_ok_iff hts he, Derivation.spelled_iff]
  refine ⟨fun d => ?_, fun error herror => ?_⟩
  · rw [haccept]
    constructor
    · rintro ⟨p, rfl, rfl⟩
      exact ⟨p, rfl, fun q hq => Derivation.tokens_injective hq, rfl⟩
    · rintro ⟨p, hp, -, hd⟩
      exact ⟨p, hp, hd⟩
  · -- A sentence would have been accepted.
    have hnot : ¬ IsSentence ts := by
      rintro ⟨p, hp⟩
      have hok := (haccept _).2 ⟨p, hp, rfl⟩
      exact absurd (hok.symm.trans herror) nofun
    refine ⟨hnot, ?_⟩
    cases Reader.fails_of_run hts he herror with
    | @token before after t r hsplit hbefore hstep =>
      refine .inl ⟨before, t, after, _, hsplit, Reader.isBeginning_iff.2 ⟨r, hbefore⟩, ?_, rfl⟩
      rw [Reader.isBeginning_iff]
      rintro ⟨r', hr'⟩
      -- The reader has only one way to go, and the step with this token is missing.
      rw [Reader.after?_append, hbefore, Option.bind_some, Reader.after?_cons, hstep] at hr'
      exact absurd hr' nofun
    | @stop r hr hclose =>
      obtain ⟨us, hus⟩ := Reader.isBeginning_iff.2 ⟨r, hr⟩
      refine .inr ⟨us, _, ?_, hus, rfl⟩
      -- With nothing more to come the tokens would be a sentence themselves.
      rintro rfl
      exact hnot (by simpa using hus)

/-- In `A = |` the bar is refused: a sentence may start with the two tokens before it, but not with
all three. -/
theorem Declarations.read_exact_bar :
    let ts : List Token :=
      [⟨.identifier, ⟨0, 1, 1⟩, "A"⟩, ⟨.equals, ⟨2, 1, 3⟩, "="⟩, ⟨.pipe, ⟨4, 1, 5⟩, "|"⟩]
    let e : Token := ⟨.eof, ⟨5, 1, 6⟩, ""⟩
    (∀ t ∈ ts, t.kind ≠ .eof) ∧ e.kind = .eof ∧
      read (ts ++ [e]) = .error (.unexpectedToken "|" .constructorName 1 5) ∧ ¬ IsSentence ts ∧
      ∃ before t after, ts = before ++ t :: after ∧ t.text = "|" ∧
        IsBeginning before ∧ ¬ IsBeginning (before ++ [t]) := by
  intro ts e
  have hts : ∀ t ∈ ts, t.kind ≠ .eof := by decide
  have hread : read (ts ++ [e]) = .error (.unexpectedToken "|" .constructorName 1 5) := rfl
  obtain ⟨hnot, hcase⟩ := (read_exact hts rfl).2 _ hread
  refine ⟨hts, rfl, hread, hnot, ?_⟩
  rcases hcase with ⟨before, t, after, _, hsplit, hbegin, hend, herror⟩ | ⟨_, _, _, _, herror⟩
  · obtain ⟨htext, -⟩ := TextError.unexpectedToken.inj herror
    exact ⟨before, t, after, hsplit, htext.symm, hbegin, hend⟩
  · exact absurd herror nofun

end TypedSyntax
