import TypedSyntax.Proofs.Grammar.Scan
import TypedSyntax.Proofs.Text.Position

/-!
# How a text is cut into tokens

A text of tokens, blanks and comments is a list of *lexemes*, each of which fits in front of the
text behind it: a word must not go on there, and a comment must run up to a line end or to the end
of the text. Cutting is stated without the scanner (`Cuts`), for a text of which something may be
left over.

* `Token.scan_exact` — the scanner gives out the tokens of the lexemes into which a text can be cut,
  each with its place and its text, and one token that ends them. A text that cannot be cut is
  refused at the first character behind the longest part of it that can.

A lexeme is passed over in one go (`Lexeme.Fits.scanFrom`), so a run follows the cut
(`Cuts.scanFrom`). Every text can be cut up to a place where no lexeme fits, and there the scanner
stops (`exists_cuts`, `Stuck.scanFrom`). Whether a lexeme fits shows in the first character behind
it, so a longer beginning of the text would be stuck at the same place.
-/

namespace TypedSyntax

/-! ### Lexemes -/

/-- What a text is made of. -/
inductive Lexeme where
  | blank (c : Char)
  /-- Two dashes and the rest of the line. -/
  | comment (line : List Char)
  | mark (c : Char) (kind : TokenKind)
  | word (c : Char) (cs : List Char)

namespace Lexeme

/-- The punctuation marks. -/
def marks : List (Char × TokenKind) :=
  [('=', .equals), ('|', .pipe), ('(', .leftParen), (')', .rightParen), (',', .comma),
    ('*', .star), ('?', .question)]

/-- The characters of a lexeme. -/
def chars : Lexeme → List Char
  | blank c => [c]
  | comment line => '-' :: '-' :: line
  | mark c _ => [c]
  | word c cs => c :: cs

/-- Whether a lexeme can stand in front of a text. A blank and a mark always can; a comment and a
word must not go on there. -/
def Fits (rest : List Char) : Lexeme → Prop
  | blank c => isBlank c = true
  | comment line => '\n' ∉ line ∧ ∀ c ∈ rest.head?, c = '\n'
  | mark c kind => (c, kind) ∈ marks
  | word c cs => IsNameStart c ∧ (∀ d ∈ cs, IsNameChar d) ∧ ∀ d ∈ rest.head?, ¬ IsNameChar d

/-- The token that a lexeme is, if it is one. -/
def token? (place : Position) : Lexeme → Option Token
  | blank _ | comment _ => none
  | mark c kind => some ⟨kind, place, c.toString⟩
  | word c cs => some ⟨.ofWord (String.ofList (c :: cs)), place, String.ofList (c :: cs)⟩

/-- The tokens among lexemes that stand behind some characters. -/
def tokens (before : List Char) : List Lexeme → List Token
  | [] => []
  | l :: ls => (l.token? (.behind before)).toList ++ tokens (before ++ l.chars) ls

theorem mem_marks_iff {c : Char} {kind : TokenKind} :
    (c, kind) ∈ marks ↔ TokenKind.ofMark? c = some kind := by
  constructor
  · intro h
    simp only [marks, List.mem_cons, Prod.mk.injEq, List.not_mem_nil, or_false] at h
    rcases h with ⟨rfl, rfl⟩ | ⟨rfl, rfl⟩ | ⟨rfl, rfl⟩ | ⟨rfl, rfl⟩ | ⟨rfl, rfl⟩ | ⟨rfl, rfl⟩ |
      ⟨rfl, rfl⟩ <;> rfl
  · intro h
    unfold TokenKind.ofMark? at h
    split at h
    case h_8 => exact absurd h nofun
    all_goals
      obtain rfl := Option.some.inj h
      decide

theorem chars_ne_nil (l : Lexeme) : l.chars ≠ [] := by
  cases l <;> exact List.cons_ne_nil _ _

variable {l : Lexeme} {rest rest' : List Char}

/-- Whether a lexeme fits shows in the first character behind it. -/
theorem Fits.mono (h : l.Fits rest) (hrest : ∀ c ∈ rest'.head?, c ∈ rest.head?) :
    l.Fits rest' := by
  cases l with
  | blank c => exact h
  | comment line => exact ⟨h.1, fun c hc => h.2 c (hrest c hc)⟩
  | mark c kind => exact h
  | word c cs => exact ⟨h.1, h.2.1, fun d hd => h.2.2 d (hrest d hd)⟩

end Lexeme

open Lexeme

/-- A text starts with lexemes, each of which fits in front of what is behind it, and `rest` is
left. -/
inductive Cuts : List Char → List Lexeme → List Char → Prop where
  | nil (rest : List Char) : Cuts rest [] rest
  | cons {l : Lexeme} {ls : List Lexeme} {text rest : List Char} (h : l.Fits text)
      (hls : Cuts text ls rest) : Cuts (l.chars ++ text) (l :: ls) rest

/-- A text that consists of blanks, comments, punctuation marks and words, of which each word and
each comment is as long as it can be. -/
def IsLexical (text : List Char) : Prop :=
  ∃ ls, Cuts text ls []

variable {ls : List Lexeme} {text rest rest' : List Char}

/-- Nothing of the text is lost in a cut. -/
theorem Cuts.eq (h : Cuts text ls rest) : text = ls.flatMap chars ++ rest := by
  induction h with
  | nil rest => rfl
  | cons _ _ ih => rw [ih, List.flatMap_cons, List.append_assoc]

/-- The same lexemes can be cut off in front of another text, if it starts alike or is empty. -/
theorem Cuts.mono (h : Cuts text ls rest) (hrest : ∀ c ∈ rest'.head?, c ∈ rest.head?) :
    Cuts (ls.flatMap chars ++ rest') ls rest' := by
  induction h with
  | nil rest => exact .nil rest'
  | @cons l ls text rest hfits hls ih =>
    rw [List.flatMap_cons, List.append_assoc]
    refine .cons (hfits.mono fun c hc => ?_) (ih hrest)
    -- The first character behind the lexeme is that of the next one, or of what is left.
    rw [hls.eq]
    rw [List.head?_append] at hc ⊢
    cases hhead : (ls.flatMap chars).head? with
    | none => simpa [hhead] using hrest c (by simpa [hhead] using hc)
    | some d => simpa [hhead] using hc

/-! ### The scanner follows a cut -/

open Token

/-- What the scanner does with a character that it looks at. -/
theorem scanFrom_nothing_cons (place : Position) (c : Char) (cs : List Char) :
    scanFrom .nothing place (c :: cs) =
      if isBlank c then scanFrom .nothing (place.advance c) cs
      else if c = '-' ∧ cs.head? = some '-' then scanFrom .comment (place.advance c) cs
      else
        match startingAt? place c cs with
        | some (token, skipping) => (scanFrom skipping (place.advance c) cs).map (token :: ·)
        | none => .error (.invalidCharacter c place.line place.column) := by
  rw [scanFrom]
  exact if_neg (by simp [Skipping.covers])

/-- The end of a comment is looked at. -/
theorem scanFrom_comment (h : ∀ c ∈ rest.head?, c = '\n') (place : Position) :
    scanFrom .comment place rest = scanFrom .nothing place rest := by
  cases rest with
  | nil => rfl
  | cons c cs =>
    obtain rfl := h c rfl
    rfl

theorem map_nil_append (x : Except TextError (List Token)) : x.map ([] ++ ·) = x := by
  cases x <;> rfl

/-- A lexeme is passed over, and is given out if it is a token. -/
theorem Lexeme.Fits.scanFrom {l : Lexeme} (h : l.Fits rest) (place : Position) :
    Token.scanFrom .nothing place (l.chars ++ rest) =
      (Token.scanFrom .nothing (place.advanceAll l.chars) rest).map
        ((l.token? place).toList ++ ·) := by
  cases l with
  | blank c =>
    have hc : isBlank c = true := h
    refine Eq.trans ?_ (map_nil_append _).symm
    exact (scanFrom_nothing_cons place c rest).trans (if_pos hc)
  | comment line =>
    -- The scanner is told by the first dash, and from then on it passes over all but a line end.
    obtain ⟨hline, hend⟩ := h
    have hcovers : ∀ c ∈ '-' :: line, Skipping.comment.covers c = true := by
      rintro c hc
      have hne : c ≠ '\n' := by
        rintro rfl
        simp [hline] at hc
      simpa [Skipping.covers] using hne
    refine Eq.trans ?_ (map_nil_append _).symm
    calc Token.scanFrom .nothing place ('-' :: '-' :: (line ++ rest))
        = Token.scanFrom .comment (place.advance '-') ('-' :: line ++ rest) := rfl
      _ = Token.scanFrom .comment ((place.advance '-').advanceAll ('-' :: line)) rest :=
        scanFrom_append hcovers
      _ = Token.scanFrom .nothing (place.advanceAll ('-' :: '-' :: line)) rest :=
        scanFrom_comment hend _
  | mark c kind =>
    -- A mark is looked up behind blanks and comments, and it is neither.
    have hmark := mem_marks_iff.1 h
    obtain ⟨hblank, hdash, -⟩ := of_ofMark?_eq_some hmark
    have hstart : startingAt? place c rest = some (⟨kind, place, c.toString⟩, .nothing) := by
      simp [startingAt?, hmark]
    refine (scanFrom_nothing_cons place c rest).trans ?_
    rw [hblank, if_neg (by decide), if_neg (by simp [hdash]), hstart]
    rfl
  | word c cs =>
    -- The word is cut out at its head, and its other characters are passed over up to the break.
    obtain ⟨hc, hcs, hbreak⟩ := h
    have hc := isWordStart_iff.2 hc
    have hcs : ∀ d ∈ cs, isWordChar d = true := fun d hd => isWordChar_iff.2 (hcs d hd)
    have hbreaks : Breaks rest := fun d hd =>
      Bool.eq_false_iff.2 fun hword => hbreak d hd (isWordChar_iff.1 hword)
    have hdash : c ≠ '-' := by
      rintro rfl
      exact absurd hc (by decide)
    have hstart : startingAt? place c (cs ++ rest) =
        some (⟨.ofWord (String.ofList (c :: cs)), place, String.ofList (c :: cs)⟩, .word) := by
      simp [startingAt?, ofMark?_of_isWordStart hc, hc, hbreaks.takeWhile_append hcs]
    have hskip : Token.scanFrom .word (place.advance c) (cs ++ rest) =
        Token.scanFrom .nothing ((place.advance c).advanceAll cs) rest :=
      (scanFrom_append hcs).trans (hbreaks.scanFrom_word _)
    refine (scanFrom_nothing_cons place c (cs ++ rest)).trans ?_
    rw [isBlank_of_isWordStart hc, if_neg (by decide), if_neg (by simp [hdash]), hstart]
    exact congrArg (Except.map _) hskip

/-- The scanner follows a cut. It gives out the tokens of the lexemes and goes on with what is
left. Where the text stands matters for the places of the tokens only. -/
theorem Cuts.scanFrom (h : Cuts text ls rest) (before : List Char) :
    Token.scanFrom .nothing (.behind before) text =
      (Token.scanFrom .nothing (.behind (before ++ ls.flatMap chars)) rest).map
        (tokens before ls ++ ·) := by
  induction h generalizing before with
  | nil rest => simpa [tokens] using (map_nil_append _).symm
  | @cons l ls text rest hfits hls ih =>
    rw [hfits.scanFrom, Position.advanceAll_behind, ih, List.flatMap_cons, ← List.append_assoc]
    cases Token.scanFrom .nothing _ rest with
    | error e => rfl
    | ok ts => simp [Except.map, tokens]

/-! ### Where no lexeme fits -/

/-- No lexeme starts with a character in front of a text. -/
structure Stuck (c : Char) (cs : List Char) : Prop where
  not_blank : isBlank c = false
  not_comment : c = '-' → cs.head? ≠ some '-'
  not_mark : TokenKind.ofMark? c = none
  not_word : isWordStart c = false

/-- Where no lexeme starts, the scanner refuses the character. It has four kinds of lexemes to look
for, and being stuck rules out each of them. -/
theorem Stuck.scanFrom {c : Char} {cs : List Char} (h : Stuck c cs) (place : Position) :
    Token.scanFrom .nothing place (c :: cs) =
      .error (.invalidCharacter c place.line place.column) := by
  have hstart : startingAt? place c cs = none := by
    simp [startingAt?, h.not_mark, h.not_word]
  rw [scanFrom_nothing_cons, h.not_blank, if_neg (by decide),
    if_neg fun hdash => h.not_comment hdash.1 hdash.2, hstart]

/-- Only a comment depends on what is behind its first character. -/
theorem Stuck.mono {c : Char} {cs cs' : List Char} (h : Stuck c cs)
    (hcs : ∀ d ∈ cs'.head?, d ∈ cs.head?) : Stuck c cs' :=
  { h with not_comment := fun hc hhead => h.not_comment hc (hcs '-' hhead) }

theorem eq_false_of_mem_head?_dropWhile {p : Char → Bool} {c : Char} {cs : List Char}
    (h : c ∈ (cs.dropWhile p).head?) : p c = false := by
  have hhead := List.head?_dropWhile_not p cs
  rwa [Option.mem_def.1 h] at hhead

/-- A comment that runs up to the next line end fits in front of it. -/
theorem fits_comment (cs : List Char) :
    (Lexeme.comment (cs.takeWhile (· ≠ '\n'))).Fits (cs.dropWhile (· ≠ '\n')) := by
  refine ⟨fun hmem => ?_, fun c hc => ?_⟩
  · simpa using List.mem_takeWhile_imp hmem
  · simpa using eq_false_of_mem_head?_dropWhile hc

/-- A word that goes on as long as it can fits in front of what is behind it. -/
theorem fits_word {c : Char} (h : isWordStart c = true) (cs : List Char) :
    (Lexeme.word c (cs.takeWhile isWordChar)).Fits (cs.dropWhile isWordChar) := by
  refine ⟨isWordStart_iff.1 h, fun d hd => isWordChar_iff.1 (List.mem_takeWhile_imp hd), ?_⟩
  intro d hd hname
  have hnot := eq_false_of_mem_head?_dropWhile hd
  exact absurd (isWordChar_iff.2 hname) (by simp [hnot])

/-- At every character a lexeme starts, or none does. The longest one is taken, which is the one
that fits. -/
theorem exists_fits_or_stuck (c : Char) (cs : List Char) :
    (∃ (l : Lexeme) (rest : List Char), c :: cs = l.chars ++ rest ∧ l.Fits rest) ∨
      Stuck c cs := by
  by_cases hblank : isBlank c = true
  · exact .inl ⟨.blank c, cs, rfl, hblank⟩
  by_cases hcomment : c = '-' ∧ cs.head? = some '-'
  · -- The comment is the rest of the line behind the second dash.
    obtain ⟨rfl, hhead⟩ := hcomment
    obtain ⟨ds, rfl⟩ := List.head?_eq_some_iff.1 hhead
    refine .inl ⟨.comment (ds.takeWhile (· ≠ '\n')), ds.dropWhile (· ≠ '\n'), ?_, fits_comment ds⟩
    simp [chars, List.takeWhile_append_dropWhile]
  cases hmark : TokenKind.ofMark? c with
  | some kind => exact .inl ⟨.mark c kind, cs, rfl, mem_marks_iff.2 hmark⟩
  | none =>
    by_cases hword : isWordStart c = true
    · refine .inl ⟨.word c (cs.takeWhile isWordChar), cs.dropWhile isWordChar, ?_,
        fits_word hword cs⟩
      simp [chars, List.takeWhile_append_dropWhile]
    · exact .inr ⟨by simpa using hblank, fun hc hhead => hcomment ⟨hc, hhead⟩, hmark,
        by simpa using hword⟩

/-- Every text can be cut up to its end, or up to a place where no lexeme fits. -/
theorem exists_cuts (text : List Char) :
    ∃ ls, Cuts text ls [] ∨ ∃ c cs, Cuts text ls (c :: cs) ∧ Stuck c cs := by
  -- A lexeme has characters, so what is behind it is shorter.
  induction hn : text.length using Nat.strong_induction_on generalizing text with
  | _ n ih =>
    cases text with
    | nil => exact ⟨[], .inl (.nil [])⟩
    | cons c cs =>
      rcases exists_fits_or_stuck c cs with ⟨l, rest, htext, hfits⟩ | hstuck
      · have hlt : rest.length < n := by
          have hpos := List.length_pos_iff.2 l.chars_ne_nil
          rw [← hn, htext, List.length_append]
          omega
        rw [htext]
        obtain ⟨ls, hls | ⟨d, ds, hls, hstuck⟩⟩ := ih _ hlt rest rfl
        · exact ⟨l :: ls, .inl (.cons hfits hls)⟩
        · exact ⟨l :: ls, .inr ⟨d, ds, .cons hfits hls, hstuck⟩⟩
      · exact ⟨[], .inr ⟨c, cs, .nil _, hstuck⟩⟩

/-! ### What the scanner returns -/

/-- A text that is cut up to its end is accepted. -/
theorem Cuts.scanFrom_ok (h : Cuts text ls []) :
    Token.scanFrom .nothing {} text = .ok (tokens [] ls ++ [atEnd (.behind text)]) := by
  have hscan := h.scanFrom []
  rw [Position.behind_nil] at hscan
  rw [hscan, h.eq, List.append_nil, List.nil_append]
  rfl

/-- A text that is cut up to a place where no lexeme fits is refused at that place. -/
theorem Cuts.scanFrom_error {c : Char} {cs : List Char} (h : Cuts text ls (c :: cs))
    (hstuck : Stuck c cs) :
    Token.scanFrom .nothing {} text =
      .error (.invalidCharacter c (Position.behind (ls.flatMap chars)).line
        (Position.behind (ls.flatMap chars)).column) := by
  have hscan := h.scanFrom []
  rw [Position.behind_nil] at hscan
  rw [hscan, List.nil_append, hstuck.scanFrom]
  rfl

/-- What can be cut off in front of a place where no lexeme fits is the longest part of the text
that can be cut at all. -/
theorem Cuts.length_le {c : Char} {cs p : List Char} (h : Cuts text ls (c :: cs))
    (hstuck : Stuck c cs) (hp : p <+: text) (hlexical : IsLexical p) :
    p.length ≤ (ls.flatMap chars).length := by
  by_contra hlt
  -- A longer part has the same lexemes, and the scanner gets stuck at the same character.
  have hbefore : ls.flatMap chars <+: p :=
    List.prefix_of_prefix_length_le ⟨c :: cs, h.eq.symm⟩ hp (by omega)
  obtain ⟨q, rfl⟩ := hbefore
  rw [h.eq, List.prefix_append_right_inj] at hp
  cases q with
  | nil => simp at hlt
  | cons d ds =>
    obtain ⟨rfl, hds⟩ := List.cons_prefix_cons.1 hp
    obtain ⟨es, rfl⟩ := hds
    have hcut : Cuts (ls.flatMap chars ++ d :: ds) ls (d :: ds) := h.mono (by simp)
    have hstuck' : Stuck d ds := hstuck.mono (by simp +contextual [List.head?_append])
    obtain ⟨ls', hls'⟩ := hlexical
    exact absurd (hls'.scanFrom_ok.symm.trans (hcut.scanFrom_error hstuck')) nofun

/-- A token stands in a text: its position is the place behind the characters before it, and its
text is the slice of the text from there on. -/
structure Token.StandsIn (s : String) (t : Token) : Prop where
  place : ∃ before after, s.toList = before ++ (t.text.toList ++ after) ∧
    t.position = .behind before
  slice : (Cursor.ofText s).slice t.position.byte (t.position.byte + t.text.utf8ByteSize) = t.text

theorem Token.StandsIn.of_place {s : String} {t : Token} {before after : List Char}
    (hs : s.toList = before ++ (t.text.toList ++ after)) (ht : t.position = .behind before) :
    t.StandsIn s :=
  ⟨⟨before, after, hs, ht⟩, by rw [ht]; exact Cursor.slice_behind hs⟩

/-- The kind of a token that is not the end of a text. -/
structure Token.WellKinded (t : Token) : Prop where
  ne_eof : t.kind ≠ .eof
  primitive_iff : t.kind = .primitive ↔ t.text = "primitive"

/-- The token of a lexeme has its characters. -/
theorem Lexeme.Fits.token? {l : Lexeme} {place : Position} {t : Token} (h : l.Fits rest)
    (ht : l.token? place = some t) :
    t.text.toList = l.chars ∧ t.position = place ∧ t.WellKinded := by
  cases l with
  | blank c => exact absurd ht nofun
  | comment line => exact absurd ht nofun
  | mark c kind =>
    obtain rfl := Option.some.inj ht
    -- A single character is not the word `primitive`.
    have htext : c.toString ≠ "primitive" := by
      intro heq
      have hlength : 1 = "primitive".length := by
        simpa using congrArg String.length heq
      exact absurd hlength (by decide)
    have hkind : kind ≠ .eof ∧ kind ≠ .primitive := by
      have hall : ∀ m ∈ marks, m.2 ≠ .eof ∧ m.2 ≠ .primitive := by decide
      exact hall _ h
    refine ⟨by simp [chars], rfl, hkind.1, ?_⟩
    exact ⟨fun hprimitive => absurd hprimitive hkind.2, fun heq => absurd heq htext⟩
  | word c cs =>
    obtain rfl := Option.some.inj ht
    refine ⟨String.toList_ofList, rfl, TokenKind.ofWord_ne_eof _, ?_⟩
    simp [TokenKind.ofWord]

/-- All tokens of a cut stand in the text that is cut. -/
theorem Cuts.standsIn {s : String} {before : List Char} (hs : s.toList = before ++ text)
    (h : Cuts text ls rest) : ∀ t ∈ tokens before ls, t.StandsIn s ∧ t.WellKinded := by
  induction h generalizing before with
  | nil rest => simp [tokens]
  | @cons l ls text rest hfits hls ih =>
    refine List.forall_mem_append.2 ⟨fun t ht => ?_, ih (by rw [hs, List.append_assoc])⟩
    obtain ⟨htext, hplace, hkind⟩ := hfits.token? (Option.mem_toList.1 ht)
    exact ⟨.of_place (by rw [hs, htext]) hplace, hkind⟩

namespace Token

variable {s : String}

/-- A text is accepted exactly if it can be cut up to its end. -/
theorem scan_eq_ok_iff {ts : List Token} :
    scan s = .ok ts ↔
      ∃ ls, Cuts s.toList ls [] ∧ ts = tokens [] ls ++ [atEnd (.behind s.toList)] := by
  constructor
  · intro h
    obtain ⟨ls, hls | ⟨c, cs, hls, hstuck⟩⟩ := exists_cuts s.toList
    · exact ⟨ls, hls, Except.ok.inj (h.symm.trans hls.scanFrom_ok)⟩
    · exact absurd (h.symm.trans (hls.scanFrom_error hstuck)) nofun
  · rintro ⟨ls, hls, rfl⟩
    exact hls.scanFrom_ok

/-- Where a text cannot be cut, the longest part of it that can decides on the error. -/
theorem exists_longest (h : ¬ IsLexical s.toList) :
    ∃ before c after, s.toList = before ++ c :: after ∧ IsLexical before ∧
      (∀ p, p <+: s.toList → IsLexical p → p.length ≤ before.length) ∧
      scan s = .error (.invalidCharacter c (Position.behind before).line
        (Position.behind before).column) := by
  obtain ⟨ls, hls | ⟨c, cs, hls, hstuck⟩⟩ := exists_cuts s.toList
  · exact absurd ⟨ls, hls⟩ h
  · have hbefore : Cuts (ls.flatMap chars ++ []) ls [] := hls.mono (by simp)
    rw [List.append_nil] at hbefore
    exact ⟨_, c, cs, hls.eq, ⟨ls, hbefore⟩, fun p hp => hls.length_le hstuck hp,
      hls.scanFrom_error hstuck⟩

/-- A text is refused exactly if its longest part that can be cut is not the whole. -/
theorem scan_eq_error_iff {error : TextError} :
    scan s = .error error ↔
      ∃ before c after, s.toList = before ++ c :: after ∧ IsLexical before ∧
        (∀ p, p <+: s.toList → IsLexical p → p.length ≤ before.length) ∧
        error = .invalidCharacter c (Position.behind before).line
          (Position.behind before).column := by
  constructor
  · intro h
    have hnot : ¬ IsLexical s.toList := by
      rintro ⟨ls, hls⟩
      exact absurd (hls.scanFrom_ok.symm.trans h) nofun
    obtain ⟨before, c, after, hs, hbefore, hlongest, hscan⟩ := exists_longest hnot
    exact ⟨before, c, after, hs, hbefore, hlongest, Except.error.inj (h.symm.trans hscan)⟩
  · rintro ⟨before, c, after, hs, hbefore, hlongest, rfl⟩
    have hnot : ¬ IsLexical s.toList := by
      intro hlexical
      have hle := hlongest _ (List.prefix_refl _) hlexical
      rw [hs, List.length_append, List.length_cons] at hle
      omega
    -- There is only one longest part.
    obtain ⟨before', c', after', hs', hbefore', hlongest', hscan⟩ := exists_longest hnot
    have hle := hlongest before' ⟨_, hs'.symm⟩ hbefore'
    have hge := hlongest' before ⟨_, hs.symm⟩ hbefore
    obtain ⟨rfl, hrest⟩ := List.append_inj (hs.symm.trans hs') (by omega)
    obtain ⟨rfl, -⟩ := List.cons.inj hrest
    exact hscan

/-- **Scanning is exact.** A text is accepted exactly if it can be cut into blanks, comments,
punctuation marks and words, and then its tokens are the marks and the words, followed by one end
token; each stands at its place, and `primitive` is a kind of its own. Any other text is refused
with the first character behind the longest part that can be cut. -/
theorem scan_exact (s : String) :
    (∀ ts, scan s = .ok ts ↔
      ∃ ls, Cuts s.toList ls [] ∧ ts = tokens [] ls ++ [atEnd (.behind s.toList)]) ∧
    (∀ ts, scan s = .ok ts →
      (∀ t ∈ ts, t.StandsIn s ∧ (t.kind = .primitive ↔ t.text = "primitive")) ∧
      ∀ t ∈ ts.dropLast, t.kind ≠ .eof) ∧
    ∀ error, scan s = .error error ↔
      ∃ before c after, s.toList = before ++ c :: after ∧ IsLexical before ∧
        (∀ p, p <+: s.toList → IsLexical p → p.length ≤ before.length) ∧
        error = .invalidCharacter c (Position.behind before).line
          (Position.behind before).column := by
  refine ⟨fun ts => scan_eq_ok_iff, fun ts h => ?_, fun error => scan_eq_error_iff⟩
  obtain ⟨ls, hls, rfl⟩ := scan_eq_ok_iff.1 h
  have hinner : ∀ t ∈ tokens [] ls, t.StandsIn s ∧ t.WellKinded := hls.standsIn rfl
  refine ⟨List.forall_mem_append.2 ⟨fun t ht => ?_, fun t ht => ?_⟩, fun t ht => ?_⟩
  · exact ⟨(hinner t ht).1, (hinner t ht).2.primitive_iff⟩
  · obtain rfl := List.mem_singleton.1 ht
    have hend : s.toList = s.toList ++ ((atEnd (.behind s.toList)).text.toList ++ []) := by
      simp [atEnd]
    exact ⟨.of_place hend rfl, by simp [atEnd]⟩
  · rw [List.dropLast_concat] at ht
    exact (hinner t ht).2.ne_eof

/-- A word, a comment with a character of two bytes, and the word `primitive` on the next line. -/
theorem scan_exact_comment :
    let s := "x --é\n primitive"
    let ts : List Token :=
      [⟨.identifier, ⟨0, 1, 1⟩, "x"⟩, ⟨.primitive, ⟨8, 2, 2⟩, "primitive"⟩,
        ⟨.eof, ⟨17, 2, 11⟩, ""⟩]
    scan s = .ok ts ∧
      (∀ t ∈ ts, t.StandsIn s ∧ (t.kind = .primitive ↔ t.text = "primitive")) ∧
      ∀ t ∈ ts.dropLast, t.kind ≠ .eof := by
  intro s ts
  have hscan : scan s = .ok ts := by decide +kernel
  exact ⟨hscan, (scan_exact s).2.1 ts hscan⟩

end Token

end TypedSyntax
