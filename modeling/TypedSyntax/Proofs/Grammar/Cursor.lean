import TypedSyntax.Proofs.Grammar.Lexeme

/-!
# Scanning with a cursor

`Token.scanFrom` reads one character after the other and remembers what it is passing over. A
scanner that holds a `Cursor` reads differently: it moves over a whole run of blanks, a whole
comment or a whole word, and cuts the text of a token out of the source by its byte offsets. This
module writes down that scanner (`Cursor.tokens`) with the operations of a cursor, and shows that
both are the same.

* `Cursor.tokens_ofText` — the tokens that a cursor reads from a text, or the error, are those of
  `Token.scan`.

The invariant is `Cursor.At`: what is left stands in the text behind some characters, and the
position of the cursor is the one behind them. All moves keep it, and it is what makes a slice
between the position before a token and the one after it the text of this token
(`Cursor.At.slice`). Apart from that, what the cursor moves over in one go is a lexeme, which the
other scanner passes over by `Lexeme.Fits.scanFrom`.
-/

namespace TypedSyntax

namespace Cursor

/-! ### Moves -/

/-- The characters `before` have been read. -/
structure At (k : Cursor) (before : List Char) : Prop where
  /-- They stand in the text in front of what is left. -/
  text_eq : k.text = before ++ k.rest
  /-- The bytes, lines and columns are counted over them. -/
  position_eq : k.position = .behind before

variable {k k' : Cursor} {before cs : List Char} {c : Char}

/-- A cursor starts in front of the text. -/
theorem At.ofText (s : String) : (ofText s).At [] :=
  ⟨rfl, Position.behind_nil.symm⟩

theorem advance_of_rest (h : k.rest = c :: cs) :
    k.advance = { k with rest := cs, position := k.position.advance c } := by
  rw [advance, h]

theorem rest_advance (h : k.rest = c :: cs) : k.advance.rest = cs := by
  rw [advance_of_rest h]

/-- A move over one character has read this character, too. -/
theorem At.advance (hk : k.At before) (h : k.rest = c :: cs) :
    k.advance.At (before ++ [c]) := by
  rw [advance_of_rest h]
  refine ⟨?_, ?_⟩
  · rw [hk.text_eq, h, List.append_assoc, List.singleton_append]
  · rw [hk.position_eq, Position.advance_behind]

/-- A move over a run of characters has read the run. -/
theorem At.advanceWhile (hk : k.At before) (p : Char → Bool) :
    (k.advanceWhile p).At (before ++ k.rest.takeWhile p) where
  text_eq := by
    change k.text = before ++ k.rest.takeWhile p ++ k.rest.dropWhile p
    rw [hk.text_eq, List.append_assoc, List.takeWhile_append_dropWhile]
  position_eq := by
    change k.position.advanceAll _ = _
    rw [hk.position_eq, Position.advanceAll_behind]

/-- The slice between two places of a cursor is what has been read in between. -/
theorem At.slice (hk : k.At before) (hk' : k'.At (before ++ cs)) :
    k'.slice k.position.byte k'.position.byte = String.ofList cs := by
  -- Both places are counted from the start of the text, so the bytes before the slice cancel out.
  have hlength : k'.position.byte - k.position.byte = (String.ofList cs).utf8ByteSize := by
    rw [hk.position_eq, hk'.position_eq, Position.behind, Position.behind, utf8ByteSize_append]
    exact Nat.add_sub_cancel_left ..
  have hdrop : dropBytes k.position.byte k'.text = cs ++ k'.rest := by
    rw [hk'.text_eq, hk.position_eq, List.append_assoc]
    exact dropBytes_append ..
  rw [Cursor.slice, hlength, hdrop, takeBytes_append]

theorem length_rest_advanceWhile_le (k : Cursor) (p : Char → Bool) :
    (k.advanceWhile p).rest.length ≤ k.rest.length :=
  (List.dropWhile_sublist p).length_le

theorem length_rest_advanceWhile_lt {p : Char → Bool} (h : k.rest = c :: cs) (hc : p c = true) :
    (k.advanceWhile p).rest.length < k.rest.length := by
  change (k.rest.dropWhile p).length < _
  rw [h, List.dropWhile_cons_of_pos hc]
  exact Nat.lt_succ_of_le (List.dropWhile_sublist p).length_le

theorem peek?_eq_some_iff : k.peek? = some c ↔ ∃ cs, k.rest = c :: cs :=
  List.head?_eq_some_iff

/-! ### The scanner -/

/-- Whether the next two characters are dashes. -/
def AtComment (k : Cursor) : Prop :=
  k.peek? = some '-' ∧ k.peekNext? = some '-'

instance : Decidable k.AtComment :=
  inferInstanceAs (Decidable (_ ∧ _))

theorem atComment_iff : k.AtComment ↔ ∃ cs, k.rest = '-' :: '-' :: cs := by
  rcases hrest : k.rest with _ | ⟨c, _ | ⟨d, cs⟩⟩ <;> simp [AtComment, peek?, peekNext?, hrest]

/-- Move over blanks and comments. -/
def skipSpace (k : Cursor) : Cursor :=
  if (k.advanceWhile isBlank).AtComment then
    ((k.advanceWhile isBlank).advanceWhile (· ≠ '\n')).skipSpace
  else k.advanceWhile isBlank
termination_by k.rest.length
decreasing_by
  obtain ⟨cs, hrest⟩ := atComment_iff.1 ‹_›
  exact Nat.lt_of_lt_of_le (length_rest_advanceWhile_lt hrest (by decide))
    (length_rest_advanceWhile_le k isBlank)

/-- Read the token that starts with the next character `c`. -/
def token (k : Cursor) (c : Char) : Except TextError (Token × Cursor) :=
  let k' := k.advance
  match TokenKind.ofMark? c with
  | some kind => .ok (⟨kind, k.position, k'.slice k.position.byte k'.position.byte⟩, k')
  | none =>
    if isWordStart c then
      let k' := k'.advanceWhile isWordChar
      let text := k'.slice k.position.byte k'.position.byte
      .ok (⟨.ofWord text, k.position, text⟩, k')
    else .error (.invalidCharacter c k.position.line k.position.column)

/-- Moving over blanks and comments does not come to more text. -/
theorem length_rest_skipSpace_le (k : Cursor) : k.skipSpace.rest.length ≤ k.rest.length := by
  fun_induction skipSpace k with
  | case1 k _ ih =>
    exact ih.trans ((length_rest_advanceWhile_le ..).trans (length_rest_advanceWhile_le ..))
  | case2 k _ => exact length_rest_advanceWhile_le ..

/-- Reading a token comes to less text, since it moves over the first character at least. This is
why reading all tokens comes to an end. -/
theorem length_rest_of_token {t : Token} (hpeek : k.peek? = some c)
    (h : k.token c = .ok (t, k')) : k'.rest.length < k.rest.length := by
  obtain ⟨cs, hrest⟩ := peek?_eq_some_iff.1 hpeek
  have hadvance : k.advance.rest.length < k.rest.length := by
    rw [rest_advance hrest, hrest]
    exact Nat.lt_succ_self _
  unfold token at h
  split at h
  · obtain ⟨-, rfl⟩ := Prod.mk.inj (Except.ok.inj h)
    exact hadvance
  · split at h
    · obtain ⟨-, rfl⟩ := Prod.mk.inj (Except.ok.inj h)
      exact Nat.lt_of_le_of_lt (length_rest_advanceWhile_le ..) hadvance
    · exact absurd h nofun

/-- Read all tokens that are left. -/
def tokens (k : Cursor) : Except TextError (List Token) :=
  match _hpeek : k.skipSpace.peek? with
  | none => .ok [.atEnd k.skipSpace.position]
  | some c =>
    match _htoken : k.skipSpace.token c with
    | .error e => .error e
    | .ok (t, k') => k'.tokens.map (t :: ·)
termination_by k.rest.length
decreasing_by
  exact Nat.lt_of_lt_of_le (length_rest_of_token _hpeek _htoken) (length_rest_skipSpace_le k)

/-! ### What it reads -/

open Token

/-- A run of blanks is passed over one by one. -/
theorem scanFrom_blanks {bs : List Char} (h : ∀ b ∈ bs, isBlank b = true) (place : Position)
    (rest : List Char) :
    scanFrom .nothing place (bs ++ rest) = scanFrom .nothing (place.advanceAll bs) rest := by
  induction bs generalizing place with
  | nil => rfl
  | cons b bs ih =>
    obtain ⟨hb, hbs⟩ := List.forall_mem_cons.1 h
    exact (scanFrom_nothing_cons place b (bs ++ rest)).trans ((if_pos hb).trans (ih hbs _))

/-- Behind a run of blanks that a cursor has moved over, `Token.scanFrom` reads on as it would have
in front of them. -/
theorem scanFrom_advanceWhile_blank (k : Cursor) :
    scanFrom .nothing (k.advanceWhile isBlank).position (k.advanceWhile isBlank).rest =
      scanFrom .nothing k.position k.rest := by
  have hrun : ∀ b ∈ k.rest.takeWhile isBlank, isBlank b = true :=
    fun b hb => List.mem_takeWhile_imp hb
  have hblanks := scanFrom_blanks hrun k.position (k.rest.dropWhile isBlank)
  rw [List.takeWhile_append_dropWhile] at hblanks
  exact hblanks.symm

/-- The same for a comment, of which the line end is not a part. -/
theorem scanFrom_advanceWhile_comment (hrest : k.rest = '-' :: '-' :: cs) :
    scanFrom .nothing (k.advanceWhile (· ≠ '\n')).position (k.advanceWhile (· ≠ '\n')).rest =
      scanFrom .nothing k.position k.rest := by
  -- The run up to the line end starts with the two dashes, which are no line ends.
  have htake : k.rest.takeWhile (· ≠ '\n') = '-' :: '-' :: cs.takeWhile (· ≠ '\n') := by
    rw [hrest]
    rfl
  have hdrop : k.rest.dropWhile (· ≠ '\n') = cs.dropWhile (· ≠ '\n') := by
    rw [hrest]
    rfl
  have hsplit : k.rest = '-' :: '-' :: cs.takeWhile (· ≠ '\n') ++ cs.dropWhile (· ≠ '\n') := by
    rw [← htake, ← hdrop, List.takeWhile_append_dropWhile]
  change scanFrom .nothing (k.position.advanceAll (k.rest.takeWhile (· ≠ '\n')))
    (k.rest.dropWhile (· ≠ '\n')) = _
  rw [htake, hdrop, hsplit]
  exact (((fits_comment cs).scanFrom k.position).trans (map_nil_append _)).symm

/-- A cursor that has moved over blanks and comments reads on where `Token.scanFrom` does. -/
theorem scanFrom_skipSpace (k : Cursor) :
    scanFrom .nothing k.skipSpace.position k.skipSpace.rest =
      scanFrom .nothing k.position k.rest := by
  fun_induction skipSpace k with
  | case1 k hcomment ih =>
    obtain ⟨cs, hrest⟩ := atComment_iff.1 hcomment
    exact ih.trans ((scanFrom_advanceWhile_comment hrest).trans (scanFrom_advanceWhile_blank k))
  | case2 k _ => exact scanFrom_advanceWhile_blank k

/-- Where a cursor stands behind blanks and comments is not said, only that it stands somewhere. -/
theorem At.skipSpace (hk : k.At before) : ∃ before', k.skipSpace.At before' := by
  fun_induction Cursor.skipSpace k generalizing before with
  | case1 k _ ih => exact ih ((hk.advanceWhile isBlank).advanceWhile _)
  | case2 k _ => exact ⟨_, hk.advanceWhile isBlank⟩

/-- What comes after blanks and comments is neither. -/
theorem not_space_of_skipSpace (h : k.skipSpace.rest = c :: cs) :
    isBlank c = false ∧ ¬ (c = '-' ∧ cs.head? = some '-') := by
  fun_induction Cursor.skipSpace k with
  | case1 k _ ih => exact ih h
  | case2 k hcomment =>
    -- The last round has moved over all blanks and found no comment behind them.
    constructor
    · have hmem : c ∈ (k.rest.dropWhile isBlank).head? := by
        change c ∈ (k.advanceWhile isBlank).rest.head?
        rw [h]
        rfl
      exact eq_false_of_mem_head?_dropWhile hmem
    · rintro ⟨rfl, hhead⟩
      obtain ⟨ds, rfl⟩ := List.head?_eq_some_iff.1 hhead
      exact hcomment (atComment_iff.2 ⟨ds, h⟩)

/-- The token that a cursor reads is the lexeme that stands there, and it then stands behind this
lexeme. If there is none, the character is refused. -/
theorem At.token_cases (hk : k.At before) (hrest : k.rest = c :: cs) (hblank : isBlank c = false)
    (hcomment : ¬ (c = '-' ∧ cs.head? = some '-')) :
    (∃ (l : Lexeme) (t : Token) (k' : Cursor), k.token c = .ok (t, k') ∧
        l.token? k.position = some t ∧ l.Fits k'.rest ∧ k.rest = l.chars ++ k'.rest ∧
          k'.At (before ++ l.chars)) ∨
      Stuck c cs ∧ k.token c = .error (.invalidCharacter c k.position.line k.position.column) := by
  have hadvance : k.advance.At (before ++ [c]) := hk.advance hrest
  cases hmark : TokenKind.ofMark? c with
  | some kind =>
    -- The slice between the two places is the mark itself.
    have hslice := hk.slice hadvance
    have htoken : k.token c = .ok (⟨kind, k.position, String.ofList [c]⟩, k.advance) := by
      simp only [token, hmark, hslice]
    refine .inl ⟨.mark c kind, _, _, htoken, ?_, Lexeme.mem_marks_iff.2 hmark, ?_, hadvance⟩
    · rw [← String.singleton_eq_ofList]
      rfl
    · rw [rest_advance hrest, hrest]
      rfl
  | none =>
    by_cases hword : isWordStart c = true
    · -- The word has been read by two moves, of which the second one starts behind its head.
      have hread : (k.advance.advanceWhile isWordChar).At
          (before ++ c :: cs.takeWhile isWordChar) := by
        have h := hadvance.advanceWhile isWordChar
        rwa [List.append_assoc, List.singleton_append, rest_advance hrest] at h
      have hslice := hk.slice hread
      have htoken : k.token c = .ok (⟨.ofWord (String.ofList (c :: cs.takeWhile isWordChar)),
          k.position, String.ofList (c :: cs.takeWhile isWordChar)⟩,
          k.advance.advanceWhile isWordChar) := by
        simp only [token, hmark, hword, if_true, hslice]
      have hrest' : (k.advance.advanceWhile isWordChar).rest = cs.dropWhile isWordChar := by
        rw [Cursor.advanceWhile, rest_advance hrest]
      refine .inl ⟨.word c (cs.takeWhile isWordChar), _, _, htoken, rfl, ?_, ?_, hread⟩
      · rw [hrest']
        exact fits_word hword cs
      · rw [hrest', hrest]
        exact congrArg (c :: ·) List.takeWhile_append_dropWhile.symm
    · refine .inr ⟨⟨hblank, fun hc hhead => hcomment ⟨hc, hhead⟩, hmark, by simpa using hword⟩, ?_⟩
      simp only [token, hmark, hword]
      rfl

/-- A cursor reads what `Token.scanFrom` reads from where it stands. -/
theorem At.tokens_eq (hk : k.At before) : k.tokens = scanFrom .nothing k.position k.rest := by
  fun_induction tokens k generalizing before with
  | case1 k hpeek =>
    have hrest : k.skipSpace.rest = [] := List.head?_eq_none_iff.1 hpeek
    rw [← scanFrom_skipSpace, hrest, scanFrom]
  | case2 k c hpeek e htoken =>
    -- A character is refused only where no lexeme fits, and there the other scanner stops.
    obtain ⟨before', hk'⟩ := hk.skipSpace
    obtain ⟨cs, hrest⟩ := peek?_eq_some_iff.1 hpeek
    obtain ⟨hblank, hcomment⟩ := not_space_of_skipSpace hrest
    rcases hk'.token_cases hrest hblank hcomment with ⟨l, t, k', h, -⟩ | ⟨hstuck, h⟩
    · cases htoken.symm.trans h
    · rw [← scanFrom_skipSpace, hrest, hstuck.scanFrom]
      exact congrArg Except.error (Except.error.inj (htoken.symm.trans h))
  | case3 k c hpeek t k' htoken ih =>
    -- The lexeme of the token is what the other scanner passes over next.
    obtain ⟨before', hk'⟩ := hk.skipSpace
    obtain ⟨cs, hrest⟩ := peek?_eq_some_iff.1 hpeek
    obtain ⟨hblank, hcomment⟩ := not_space_of_skipSpace hrest
    rcases hk'.token_cases hrest hblank hcomment with
      ⟨l, t, k', h, ht, hfits, hsplit, hread⟩ | ⟨-, h⟩
    · obtain ⟨rfl, rfl⟩ := Prod.mk.inj (Except.ok.inj (htoken.symm.trans h))
      rw [← scanFrom_skipSpace, hsplit, hfits.scanFrom, ht, ih hread, hread.position_eq,
        hk'.position_eq, Position.advanceAll_behind]
      rfl
    · cases htoken.symm.trans h

/-- **A cursor reads the tokens of a text.** The tokens, with their places and texts, and the first
character that is refused, are those of `Token.scan`. -/
theorem tokens_ofText (s : String) : (ofText s).tokens = Token.scan s :=
  (At.ofText s).tokens_eq

end Cursor

end TypedSyntax
