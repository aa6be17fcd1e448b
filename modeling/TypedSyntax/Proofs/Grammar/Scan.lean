import Mathlib.Data.List.TakeWhile
import TypedSyntax.Grammar.Reader
import TypedSyntax.Proofs.Except

/-!
# What the scanner makes of a text

A name is a word other than `primitive` (`IsName`). A word goes on as long as it can, so a text
that ends in one keeps its tokens only in front of a *break*. What is said here about the tokens of
a text is therefore said of a text in front of another one:

* `Scans.name_append`, `Scans.primitive_append`, `Scans.mark_cons`, `Scans.blank_cons` — the tokens
  of a text that starts with a name, the word `primitive`, a punctuation mark or a blank;
* `Token.scanFrom_eq_ok` — for any text, the identifiers among its tokens are names, and an end
  token closes the list and stands nowhere else.

`Scans` forgets the places of the tokens, which the reader only looks at when it refuses one
(`Reader.run_unplaced_eq_ok_iff`).
-/

namespace TypedSyntax

/-! ### Names -/

/-- A letter from `A` to `Z` or from `a` to `z`, or an underscore. -/
def IsNameStart (c : Char) : Prop :=
  ('A' ≤ c ∧ c ≤ 'Z') ∨ ('a' ≤ c ∧ c ≤ 'z') ∨ c = '_'

/-- The same or a digit from `0` to `9`. -/
def IsNameChar (c : Char) : Prop :=
  IsNameStart c ∨ ('0' ≤ c ∧ c ≤ '9')

/-- A text that names a type, a constructor or a field in grammar text. -/
structure IsName (s : String) : Prop where
  /-- It matches `[A-Za-z_][A-Za-z0-9_]*`. -/
  shape : ∃ c cs, s.toList = c :: cs ∧ IsNameStart c ∧ ∀ d ∈ cs, IsNameChar d
  /-- The word `primitive` has a meaning of its own. -/
  ne_primitive : s ≠ "primitive"

theorem isWordStart_iff {c : Char} : isWordStart c = true ↔ IsNameStart c := by
  -- The library has its classes as Boolean tests; spelled out, they are the ranges above.
  have hupper : c.isUpper = decide ('A' ≤ c ∧ c ≤ 'Z') := rfl
  have hlower : c.isLower = (decide ('a' ≤ c) && decide (c ≤ 'z')) := rfl
  have halpha : c.isAlpha = (c.isUpper || c.isLower) := rfl
  simp only [isWordStart, halpha, hupper, hlower, IsNameStart, Bool.or_eq_true, Bool.and_eq_true,
    decide_eq_true_eq, beq_iff_eq, or_assoc]

theorem isWordChar_iff {c : Char} : isWordChar c = true ↔ IsNameChar c := by
  have hdigit : c.isDigit = (decide ('0' ≤ c) && decide (c ≤ '9')) := rfl
  -- The scanner tests for a letter or digit first and for the underscore last.
  have hstart : isWordChar c = (isWordStart c || c.isDigit) := by
    simp [isWordChar, isWordStart, Char.isAlphanum, Bool.or_right_comm]
  rw [hstart, hdigit, Bool.or_eq_true, isWordStart_iff, Bool.and_eq_true, decide_eq_true_eq,
    decide_eq_true_eq]
  rfl

/-- The characters that start a word stand between `A` and `z` in code order, where there are no
blanks, no dash and no punctuation marks. -/
theorem toNat_of_isWordStart {c : Char} (h : isWordStart c = true) :
    65 ≤ c.toNat ∧ c.toNat ≤ 122 := by
  rcases isWordStart_iff.1 h with ⟨hA, hZ⟩ | ⟨ha, hz⟩ | rfl
  · exact ⟨hA, Nat.le_trans hZ (by decide)⟩
  · exact ⟨Nat.le_trans (by decide) ha, hz⟩
  · decide

/-- No blank starts a word. Blanks have codes below those of the letters, or above them. -/
theorem isBlank_of_isWordStart {c : Char} (h : isWordStart c = true) : isBlank c = false := by
  have hrange := toNat_of_isWordStart h
  simp only [isBlank, Bool.or_eq_false_iff, Bool.and_eq_false_iff, decide_eq_false_iff_not,
    beq_eq_false_iff_ne]
  omega

/-- No punctuation mark starts a word. -/
theorem ofMark?_of_isWordStart {c : Char} (h : isWordStart c = true) :
    TokenKind.ofMark? c = none := by
  unfold TokenKind.ofMark?
  split
  -- Each row but the last is about one character, and none of these starts a word.
  case h_8 => rfl
  all_goals exact absurd h (by decide)

/-- A punctuation mark is none of the characters that the scanner looks at first, and its token is
neither a word nor the end of a text. -/
theorem of_ofMark?_eq_some {c : Char} {k : TokenKind} (h : TokenKind.ofMark? c = some k) :
    isBlank c = false ∧ c ≠ '-' ∧ k ≠ .eof ∧ k ≠ .identifier := by
  unfold TokenKind.ofMark? at h
  split at h
  case h_8 => exact absurd h nofun
  all_goals
    obtain rfl := Option.some.inj h
    decide

theorem TokenKind.ofWord_eq_identifier_iff {s : String} :
    ofWord s = .identifier ↔ s ≠ "primitive" := by
  simp [ofWord]

theorem TokenKind.ofWord_ne_eof (s : String) : ofWord s ≠ .eof := by
  unfold ofWord
  split <;> decide

/-! ### Texts in front of texts -/

namespace Token

/-- A token without its place. -/
def unplaced (t : Token) : Token :=
  { t with position := {} }

/-- The token of a word. -/
def word (s : String) : Token :=
  ⟨.ofWord s, {}, s⟩

/-- The token of a punctuation mark. -/
def mark (kind : TokenKind) (c : Char) : Token :=
  ⟨kind, {}, c.toString⟩

/-- Characters that are covered are passed over and give no tokens. The scanner goes on in the same
way behind them; only the place has moved. -/
theorem scanFrom_append {skipping : Skipping} {place : Position} {cs rest : List Char}
    (h : ∀ c ∈ cs, skipping.covers c = true) :
    scanFrom skipping place (cs ++ rest) = scanFrom skipping (place.advanceAll cs) rest := by
  induction cs generalizing place with
  | nil => rfl
  | cons c cs ih =>
    obtain ⟨hc, hcs⟩ := List.forall_mem_cons.1 h
    rw [List.cons_append, scanFrom, if_pos hc, ih hcs]
    rfl

end Token

open Token

/-- No word goes on into a text: it is empty, or its first character is no part of a word. -/
def Breaks (cs : List Char) : Prop :=
  ∀ c ∈ cs.head?, isWordChar c = false

/-- The tokens of a text, wherever it stands, without their places. The place is for all, since a
text behind another one starts where that one ends. -/
def Scans (cs : List Char) (ts : List Token) : Prop :=
  ∀ place, ∃ us, scanFrom .nothing place cs = .ok us ∧ us.map unplaced = ts

variable {c : Char} {cs rest : List Char} {ts : List Token}

theorem breaks_cons : Breaks (c :: cs) ↔ isWordChar c = false := by
  simp [Breaks]

/-- A break ends a word that is passed over: from there on the scanner looks for tokens again. -/
theorem Breaks.scanFrom_word (h : Breaks cs) (place : Position) :
    scanFrom .word place cs = scanFrom .nothing place cs := by
  cases cs with
  | nil => rfl
  | cons c cs =>
    have hc := breaks_cons.1 h
    simp [scanFrom, Skipping.covers, hc]

/-- What the scanner cuts out in front of a break is the word and no more. -/
theorem Breaks.takeWhile_append (h : Breaks rest) (hcs : ∀ c ∈ cs, isWordChar c = true) :
    (cs ++ rest).takeWhile isWordChar = cs := by
  rw [List.takeWhile_append_of_pos hcs]
  cases rest with
  | nil => simp
  | cons c rest => simp [breaks_cons.1 h]

namespace Scans

theorem nil : Scans [] [atEnd {}] :=
  fun place => ⟨[atEnd place], rfl, rfl⟩

theorem blank_cons (hc : isBlank c = true) (h : Scans cs ts) : Scans (c :: cs) ts := by
  intro place
  obtain ⟨us, hus, hts⟩ := h (place.advance c)
  exact ⟨us, by simp [scanFrom, Skipping.covers, hc, hus], hts⟩

theorem mark_cons {kind : TokenKind} (hc : TokenKind.ofMark? c = some kind) (h : Scans cs ts) :
    Scans (c :: cs) (mark kind c :: ts) := by
  intro place
  obtain ⟨us, hus, rfl⟩ := h (place.advance c)
  obtain ⟨hblank, hdash, -⟩ := of_ofMark?_eq_some hc
  refine ⟨⟨kind, place, c.toString⟩ :: us, ?_, rfl⟩
  simp [scanFrom, Skipping.covers, startingAt?, hblank, hdash, hc, hus, Except.map]

/-- A word is one token, since the break after it keeps it from going on. -/
theorem word_append {s : String} (hs : s.toList = c :: cs) (hc : isWordStart c = true)
    (hcs : ∀ c ∈ cs, isWordChar c = true) (hrest : Breaks rest) (h : Scans rest ts) :
    Scans (s.toList ++ rest) (word s :: ts) := by
  intro place
  obtain ⟨us, hus, rfl⟩ := h ((place.advance c).advanceAll cs)
  -- The whole word is cut out at its first character; the others are then passed over.
  have hword : scanFrom .word (place.advance c) (cs ++ rest) = .ok us := by
    rw [scanFrom_append hcs, hrest.scanFrom_word, hus]
  have hstart : startingAt? place c (cs ++ rest) = some (⟨.ofWord s, place, s⟩, .word) := by
    have htext : String.ofList (c :: cs) = s := by
      rw [← hs, String.ofList_toList]
    simp [startingAt?, ofMark?_of_isWordStart hc, hc, hrest.takeWhile_append hcs, htext]
  -- The scanner looks for comments before it looks for words.
  have hdash : c ≠ '-' := by
    rintro rfl
    exact absurd hc (by decide)
  refine ⟨⟨.ofWord s, place, s⟩ :: us, ?_, rfl⟩
  simp [hs, scanFrom, Skipping.covers, isBlank_of_isWordStart hc, hdash, hstart, hword, Except.map]

theorem name_append {s : String} (hs : IsName s) (hrest : Breaks rest) (h : Scans rest ts) :
    Scans (s.toList ++ rest) (word s :: ts) := by
  obtain ⟨c, cs, htext, hc, hcs⟩ := hs.shape
  exact word_append htext (isWordStart_iff.2 hc) (fun d hd => isWordChar_iff.2 (hcs d hd)) hrest h

theorem primitive_append (hrest : Breaks rest) (h : Scans rest ts) :
    Scans ("primitive".toList ++ rest) (word "primitive" :: ts) :=
  word_append rfl rfl (List.all_eq_true.1 rfl) hrest h

end Scans

theorem IsName.word_kind {s : String} (hs : IsName s) : (word s).kind = .identifier :=
  TokenKind.ofWord_eq_identifier_iff.2 hs.ne_primitive

/-! ### The tokens of any text -/

namespace Token

/-- A token that the scanner gives out before the end of a text. -/
structure Inner (t : Token) : Prop where
  ne_eof : t.kind ≠ .eof
  isName : t.kind = .identifier → IsName t.text

theorem inner_of_startingAt? {place : Position} {t : Token} {skipping : Skipping}
    (h : startingAt? place c cs = some (t, skipping)) : t.Inner := by
  unfold startingAt? at h
  split at h
  · -- The token of a punctuation mark is no identifier.
    next hkind =>
    obtain ⟨rfl, -⟩ := Prod.mk.inj (Option.some.inj h)
    obtain ⟨-, -, heof, hid⟩ := of_ofMark?_eq_some hkind
    exact ⟨heof, fun h => absurd h hid⟩
  · split at h
    · -- The token of a word has a name for its text, unless the word is `primitive`.
      next hc =>
      obtain ⟨rfl, -⟩ := Prod.mk.inj (Option.some.inj h)
      have hcs : ∀ d ∈ cs.takeWhile isWordChar, IsNameChar d :=
        fun d hd => isWordChar_iff.1 (List.mem_takeWhile_imp hd)
      refine ⟨TokenKind.ofWord_ne_eof _, fun hid => ⟨?_, ?_⟩⟩
      · exact ⟨c, _, String.toList_ofList, isWordStart_iff.1 hc, hcs⟩
      · exact TokenKind.ofWord_eq_identifier_iff.1 hid
    · exact absurd h nofun

/-- What the scanner gives out: inner tokens, and one token that ends them. -/
theorem scanFrom_eq_ok {skipping : Skipping} {place : Position}
    (h : scanFrom skipping place cs = .ok ts) :
    ∃ us e, ts = us ++ [e] ∧ e.kind = .eof ∧ ∀ t ∈ us, t.Inner := by
  -- Each character may change what is passed over behind it, so this stays general.
  induction cs generalizing skipping place ts with
  | nil =>
    obtain rfl := Except.ok.inj h
    exact ⟨[], atEnd place, rfl, rfl, by simp⟩
  | cons c cs ih =>
    unfold scanFrom at h
    split at h
    · exact ih h
    · split at h
      · exact ih h
      · split at h
        · exact ih h
        · -- The character is not passed over, be it in a word, as a blank or in a comment.
          split at h
          · next t next hstart =>
            obtain ⟨us, hus, rfl⟩ := map_eq_ok_iff.1 h
            obtain ⟨us, e, rfl, he, hinner⟩ := ih hus
            refine ⟨t :: us, e, rfl, he, ?_⟩
            exact List.forall_mem_cons.2 ⟨inner_of_startingAt? hstart, hinner⟩
          · exact absurd h nofun

end Token

/-! ### Reading tokens without places -/

/-- A run that succeeds does not depend on the places of the tokens: a step reads their kinds and
texts only, and places are for errors. -/
theorem Reader.run_unplaced_eq_ok_iff {r : Reader} {d : Declarations} :
    r.run (ts.map unplaced) = .ok d ↔ r.run ts = .ok d := by
  induction ts generalizing r with
  | nil => rfl
  | cons t ts ih =>
    have hkind : t.unplaced.kind = t.kind := rfl
    have hstep : r.step? t.unplaced = r.step? t := rfl
    simp only [List.map_cons, run, hkind, hstep]
    split
    · rfl
    · split
      · exact ih
      · simp

end TypedSyntax
