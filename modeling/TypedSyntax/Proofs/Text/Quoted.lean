import Mathlib.Data.List.Nodup
import Mathlib.Data.List.TakeWhile
import TypedSyntax.Text.Quoted

/-!
# Quoted text ends where its quotation mark says

A quoted text may hold anything, quotation marks and backslashes included. What comes after it can
still be told from it:

* `quotedChars_append_inj` — where two quoted texts, each with something behind it, are the same
  characters, the texts are the same and so is what is behind them.

Little of `quotedChar` is needed for this. A character stands for itself or is escaped, and then by
one more character (`shortEscapes`) or by its number in braces. Which of these it is matters only
for the quotation mark and the backslash, which never stand for themselves. `Spells` says that much,
and `flatMap_append_inj` holds for all spellings that keep to it.
-/

namespace TypedSyntax

/-! ### Texts in front of a stop -/

/-- A text of characters of one class ends at the first character of another. -/
theorem takeWhile_append_of_stop {p : Char → Bool} {as x : List Char} (ha : ∀ c ∈ as, p c = true)
    (hx : ∀ c ∈ x.head?, p c = false) : (as ++ x).takeWhile p = as := by
  have hstop : x.takeWhile p = [] := by
    cases x with
    | nil => rfl
    | cons c x => exact List.takeWhile_cons_of_neg (by simp [hx c rfl])
  rw [List.takeWhile_append_of_pos ha, hstop, List.append_nil]

/-- So two such texts that start the same are the same, and so is what comes behind them. -/
theorem append_inj_of_stop {p : Char → Bool} {as bs x y : List Char}
    (ha : ∀ c ∈ as, p c = true) (hb : ∀ c ∈ bs, p c = true) (hx : ∀ c ∈ x.head?, p c = false)
    (hy : ∀ c ∈ y.head?, p c = false) (h : as ++ x = bs ++ y) : as = bs ∧ x = y := by
  have hab : as = bs :=
    calc as = (as ++ x).takeWhile p := (takeWhile_append_of_stop ha hx).symm
      _ = (bs ++ y).takeWhile p := by rw [h]
      _ = bs := takeWhile_append_of_stop hb hy
  subst hab
  exact ⟨rfl, List.append_cancel_left h⟩

/-! ### Hexadecimal numbers -/

theorem digitChar_inj : ∀ m < 16, ∀ n < 16, Nat.digitChar m = Nat.digitChar n → m = n := by
  decide

/-- No two numbers have the same hexadecimal digits. -/
theorem toDigits_inj {m n : Nat} (h : Nat.toDigits 16 m = Nat.toDigits 16 n) : m = n := by
  -- The last digits are the same, and the digits before them spell a smaller number.
  induction m using Nat.strongRecOn generalizing n with
  | ind m ih =>
    rw [Nat.toDigits_eq_if (n := m) (by decide), Nat.toDigits_eq_if (n := n) (by decide)] at h
    split at h <;> split at h
    · next hm hn => exact digitChar_inj m hm n hn (List.cons.inj h).1
    · rw [← List.nil_append [m.digitChar]] at h
      exact absurd (List.append_inj' h rfl).1.symm Nat.toDigits_ne_nil
    · rw [← List.nil_append [n.digitChar]] at h
      exact absurd (List.append_inj' h rfl).1 Nat.toDigits_ne_nil
    · obtain ⟨hdigits, hlast⟩ := List.append_inj' h rfl
      have hdiv := ih (m / 16) (by omega) hdigits
      have hmod := digitChar_inj _ (Nat.mod_lt m (by decide)) _ (Nat.mod_lt n (by decide))
        (List.cons.inj hlast).1
      omega

/-- A closing brace is no digit. -/
theorem ne_brace_of_mem_toDigits {n : Nat} {c : Char} (h : c ∈ Nat.toDigits 16 n) :
    c ≠ '\x7d' := by
  induction n using Nat.strongRecOn with
  | ind n ih =>
    have hdigit : ∀ d, c ∈ [Nat.digitChar d] → c ≠ '\x7d' := fun d hd =>
      List.mem_singleton.1 hd ▸ Nat.digitChar_ne '\x7d' (by decide)
    rw [Nat.toDigits_eq_if (by decide)] at h
    split at h
    · exact hdigit n h
    · rcases List.mem_append.1 h with h | h
      · exact ih (n / 16) (by omega) h
      · exact hdigit _ h

/-! ### Spelling one character -/

/-- The characters that may be escaped by one character behind a backslash, each with the one that
stands for it. -/
def shortEscapes (mark : Char) : List (Char × Char) :=
  [(mark, mark), ('\\', '\\'), ('\x00', '0'), ('\t', 't'), ('\n', 'n'), ('\r', 'r')]

/-- What may stand for a character between two marks. -/
inductive Spells (mark : Char) : Char → List Char → Prop where
  | plain {c : Char} (hmark : c ≠ mark) (hslash : c ≠ '\\') : Spells mark c [c]
  | short {c e : Char} (h : (c, e) ∈ shortEscapes mark) : Spells mark c ['\\', e]
  | numbered (c : Char) :
    Spells mark c (['\\', 'u', '\x7b'] ++ Nat.toDigits 16 c.toNat ++ ['\x7d'])

/-- What `quotedChar` writes for a character is one of its spellings. -/
theorem spells_quotedChar (mark c : Char) : Spells mark c (quotedChar mark c) := by
  unfold quotedChar
  split_ifs with hself hnull htab hline hreturn hnumber
  · rcases hself with rfl | rfl <;> exact .short (by simp [shortEscapes])
  · exact .short (by simp [shortEscapes, hnull])
  · exact .short (by simp [shortEscapes, htab])
  · exact .short (by simp [shortEscapes, hline])
  · exact .short (by simp [shortEscapes, hreturn])
  · exact .numbered c
  · obtain ⟨hmark, hslash⟩ := not_or.1 hself
    exact .plain hmark hslash

/-- The escapes can be told apart by the character behind the backslash, where a number has a `u`.
A letter like `n` would not do as a quotation mark, nor would the backslash. -/
def IsMark (mark : Char) : Prop :=
  ('u' :: (shortEscapes mark).map Prod.snd).Nodup

theorem isMark_doubleQuote : IsMark '\x22' := by
  unfold IsMark
  decide

section

variable {mark c d : Char} {u v x y : List Char}

/-- A mark is no backslash: this one has an escape of its own. -/
theorem IsMark.ne_slash (hm : IsMark mark) : mark ≠ '\\' := by
  rintro rfl
  exact absurd hm (by unfold IsMark; decide)

theorem IsMark.ne_u (hm : IsMark mark) {e : Char} (h : (c, e) ∈ shortEscapes mark) : e ≠ 'u' := by
  rintro rfl
  exact (List.nodup_cons.1 hm).1 (List.mem_map_of_mem (f := Prod.snd) h)

/-- The character behind the backslash tells what it stands for. -/
theorem IsMark.escape_inj (hm : IsMark mark) {e : Char} (hc : (c, e) ∈ shortEscapes mark)
    (hd : (d, e) ∈ shortEscapes mark) : c = d :=
  (Prod.mk.inj (List.inj_on_of_nodup_map (List.nodup_cons.1 hm).2 hc hd rfl)).1

/-- No spelling starts with a mark: the mark itself is only ever written behind a backslash. -/
theorem Spells.append_ne (hm : IsMark mark) (hu : Spells mark c u) : u ++ x ≠ mark :: y := by
  intro h
  cases hu with
  | plain hmark _ => exact hmark (List.cons.inj h).1
  | short _ => exact hm.ne_slash (List.cons.inj h).1.symm
  | numbered => exact hm.ne_slash (List.cons.inj h).1.symm

/-- One character is read from its spelling, whatever follows. -/
theorem Spells.append_inj (hm : IsMark mark) (hu : Spells mark c u) (hv : Spells mark d v)
    (h : u ++ x = v ++ y) : c = d ∧ x = y := by
  -- A backslash in front tells an escape from a character that stands for itself, and the
  -- character behind it tells the escapes from each other.
  cases hu with
  | plain _ hc =>
    cases hv with
    | plain _ _ => exact List.cons.inj h
    | short _ => exact absurd (List.cons.inj h).1 hc
    | numbered => exact absurd (List.cons.inj h).1 hc
  | short hc =>
    cases hv with
    | plain _ hd => exact absurd (List.cons.inj h).1.symm hd
    | short hd =>
      obtain ⟨rfl, hrest⟩ := List.cons.inj (List.cons.inj h).2
      exact ⟨hm.escape_inj hc hd, hrest⟩
    | numbered => exact absurd (List.cons.inj (List.cons.inj h).2).1 (hm.ne_u hc)
  | numbered =>
    cases hv with
    | plain _ hd => exact absurd (List.cons.inj h).1.symm hd
    | short hd => exact absurd (List.cons.inj (List.cons.inj h).2).1.symm (hm.ne_u hd)
    | numbered =>
      simp only [List.append_assoc, List.append_cancel_left_eq] at h
      -- The brace behind the digits is where they stop.
      obtain ⟨hdigits, hrest⟩ := append_inj_of_stop (p := (· != '\x7d'))
        (fun e he => by simpa using ne_brace_of_mem_toDigits he)
        (fun e he => by simpa using ne_brace_of_mem_toDigits he) (by simp) (by simp) h
      exact ⟨Char.toNat_inj.1 (toDigits_inj hdigits), (List.cons.inj hrest).2⟩

/-! ### Spelling a text -/

/-- A text is read from its spelling up to the first mark that is not part of a spelling. -/
theorem flatMap_append_inj (hm : IsMark mark) {spell : Char → List Char}
    (hspell : ∀ c, Spells mark c (spell c)) {cs ds : List Char}
    (h : cs.flatMap spell ++ mark :: x = ds.flatMap spell ++ mark :: y) : cs = ds ∧ x = y := by
  induction cs generalizing ds with
  | nil =>
    cases ds with
    | nil => exact ⟨rfl, (List.cons.inj h).2⟩
    | cons d ds =>
      rw [List.flatMap_cons, List.append_assoc] at h
      exact absurd h.symm ((hspell d).append_ne hm)
  | cons c cs ih =>
    rw [List.flatMap_cons, List.append_assoc] at h
    cases ds with
    | nil => exact absurd h ((hspell c).append_ne hm)
    | cons d ds =>
      rw [List.flatMap_cons, List.append_assoc] at h
      obtain ⟨rfl, hnext⟩ := (hspell c).append_inj hm (hspell d) h
      obtain ⟨rfl, hrest⟩ := ih hnext
      exact ⟨rfl, hrest⟩

/-- A quoted text can be told from what follows it. -/
theorem quotedChars_append_inj (hm : IsMark mark) {cs ds : List Char}
    (h : quotedChars mark cs ++ x = quotedChars mark ds ++ y) : cs = ds ∧ x = y := by
  simp only [quotedChars, List.cons_append, List.append_assoc, List.nil_append] at h
  exact flatMap_append_inj hm (spells_quotedChar mark) (List.cons.inj h).2

end

end TypedSyntax
