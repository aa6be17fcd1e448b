import Mathlib.Data.List.Forall2
import TypedSyntax.Subword

/-!
# Pieces and the words they spell

A word can be cut into pieces in many ways. The first piece is the marker and some beginning of the
word, which may be empty, and the other pieces go on with the word until its end (`Subword.Cut`).
Pieces *segment* a list of words if they are cuts of the words, one word after the other, with empty
pieces strewn in anywhere (`Subword.Segments`).

* `Subword.segmentation_undone` — putting the pieces of any segmentation together gives back the
  words, if the marker does not occur in them. So a text without the marker is what the pieces of
  the model of runs spell, whatever the length of the runs.
* `Subword.reassembly_conserves` — pieces that segment nothing are put together, too, and no
  character gets lost: the words with their markers are the pieces, written one after the other.

The scan carries the word that it is in, if it is in one. What a piece does to that word depends on
how the piece begins, and there is one equation for each way (`reassembleFrom_empty`,
`reassembleFrom_marked`, `reassembleFrom_unmarked`). The rest is induction: along the pieces of a
word, and then along the words, with the current word free in both. For pieces of any sort there are
no words to begin with, and the induction is along the pieces (`pieces_induction`).
-/

namespace TypedSyntax

namespace Subword

variable {marker : Char} {current : Option String} {word piece : String} {pieces : List String}

/-! ### One piece -/

/-- A text behind the marker. -/
def marked (marker : Char) (text : String) : String :=
  String.ofList (marker :: text.toList)

theorem marked_ne_empty (text : String) : marked marker text ≠ "" := by
  rw [ne_eq, ← String.toList_eq_nil_iff, marked, String.toList_ofList]
  exact List.cons_ne_nil _ _

/-- An empty piece does not count. -/
theorem reassembleFrom_empty :
    reassembleFrom marker current ("" :: pieces) = reassembleFrom marker current pieces := by
  rw [reassembleFrom]
  rfl

/-- A piece behind the marker ends the current word and starts the next one. -/
theorem reassembleFrom_marked (text : String) :
    reassembleFrom marker current (marked marker text :: pieces) =
      current.toList ++ reassembleFrom marker (some text) pieces := by
  rw [reassembleFrom, marked, String.toList_ofList]
  show (if marker = marker then _ else _) = _
  rw [if_pos rfl, String.ofList_toList]

/-- Whether a piece has the marker in front. -/
def opens (marker : Char) (piece : String) : Bool :=
  piece.toList.head? == some marker

theorem opens_empty : opens marker "" = false :=
  rfl

theorem opens_marked (text : String) : opens marker (marked marker text) = true := by
  rw [opens, marked, String.toList_ofList, List.head?_cons]
  exact beq_self_eq_true _

theorem opens_of_not_mem (h : marker ∉ piece.toList) : opens marker piece = false :=
  beq_false_of_ne fun hhead => h (List.mem_of_head? hhead)

/-- A piece that is not empty and has no marker in front goes on with the current word, or with an
empty one. -/
theorem reassembleFrom_unmarked (hne : piece ≠ "") (hopens : opens marker piece = false) :
    reassembleFrom marker current (piece :: pieces) =
      reassembleFrom marker (some (current.getD "" ++ piece)) pieces := by
  rw [reassembleFrom]
  cases hcs : piece.toList with
  | nil => exact absurd (String.toList_eq_nil_iff.1 hcs) hne
  | cons c cs =>
    have hc : c ≠ marker := by
      rintro rfl
      rw [opens, hcs, List.head?_cons, beq_self_eq_true] at hopens
      exact Bool.false_ne_true hopens.symm
    show (if c = marker then _ else _) = _
    rw [if_neg hc]

/-- Empty pieces can be left out from the start. -/
theorem reassembleFrom_filter (pieces : List String) :
    reassembleFrom marker current (pieces.filter (· ≠ "")) =
      reassembleFrom marker current pieces := by
  induction pieces generalizing current with
  | nil => rfl
  | cons piece pieces ih =>
    by_cases hpiece : piece = ""
    · subst hpiece
      rw [List.filter_cons_of_neg (by simp), reassembleFrom_empty, ih]
    · rw [List.filter_cons_of_pos (by simpa using hpiece), reassembleFrom, reassembleFrom]
      simp only [ih]

/-! ### Words -/

/-- A cut of a word: the marker and a beginning of the word, then non-empty pieces that go on with
the word until its end. -/
inductive Cut (marker : Char) (word : String) : List String → Prop where
  | intro (first : String) (rest : List String) (nonempty : ∀ piece ∈ rest, piece ≠ "")
      (whole : first ++ String.join rest = word) : Cut marker word (marked marker first :: rest)

/-- Cuts of the words, one after the other, among any number of empty pieces. -/
def Segments (marker : Char) (words pieces : List String) : Prop :=
  ∃ cuts, List.Forall₂ (Cut marker) words cuts ∧ pieces.filter (· ≠ "") = cuts.flatten

theorem Cut.ne_empty (h : Cut marker word pieces) : ∀ piece ∈ pieces, piece ≠ "" := by
  obtain ⟨first, rest, nonempty, -⟩ := h
  exact List.forall_mem_cons.2 ⟨marked_ne_empty first, nonempty⟩

/-- Pieces without the marker are all appended to the current word. -/
theorem reassembleFrom_continued {rest : List String} (hne : ∀ piece ∈ rest, piece ≠ "")
    (hm : ∀ piece ∈ rest, marker ∉ piece.toList) :
    reassembleFrom marker (some word) (rest ++ pieces) =
      reassembleFrom marker (some (word ++ String.join rest)) pieces := by
  induction rest generalizing word with
  | nil => rw [String.join_nil, String.append_empty, List.nil_append]
  | cons piece rest ih =>
    rw [List.forall_mem_cons] at hne hm
    rw [List.cons_append, reassembleFrom_unmarked hne.1 (opens_of_not_mem hm.1), Option.getD_some,
      ih hne.2 hm.2, String.join_cons, String.append_assoc]

/-- The pieces of a word end the current word and leave the scan in theirs. -/
theorem Cut.reassembleFrom {cut : List String} (h : Cut marker word cut)
    (hm : marker ∉ word.toList) :
    reassembleFrom marker current (cut ++ pieces) =
      current.toList ++ reassembleFrom marker (some word) pieces := by
  obtain ⟨first, rest, nonempty, rfl⟩ := h
  -- A piece that goes on with the word has only characters of the word, so not the marker.
  have hrest : ∀ piece ∈ rest, marker ∉ piece.toList := by
    intro piece hpiece hmem
    apply hm
    rw [String.toList_append, String.toList_join]
    exact List.mem_append_right _ (List.mem_flatMap.2 ⟨piece, hpiece, hmem⟩)
  rw [List.cons_append, reassembleFrom_marked, reassembleFrom_continued nonempty hrest]

/-- The pieces of words spell the words, after the current one. -/
theorem reassembleFrom_cuts {words : List String} {cuts : List (List String)}
    (h : List.Forall₂ (Cut marker) words cuts) (hm : ∀ word ∈ words, marker ∉ word.toList) :
    reassembleFrom marker current cuts.flatten = current.toList ++ words := by
  induction h generalizing current with
  | nil => rw [List.flatten_nil, reassembleFrom, List.append_nil]
  | cons hcut _ ih =>
    rw [List.forall_mem_cons] at hm
    rw [List.flatten_cons, hcut.reassembleFrom hm.1, ih hm.2]
    rfl

/-- Pieces that segment words spell them. The marker must not be in the words since a piece that
starts with it starts a new word, wherever the piece has been cut out. -/
theorem Segments.reassemble {words : List String} (h : Segments marker words pieces)
    (hm : ∀ word ∈ words, marker ∉ word.toList) : reassemble marker pieces = words := by
  obtain ⟨cuts, hcuts, hpieces⟩ := h
  rw [Subword.reassemble, ← reassembleFrom_filter, hpieces, reassembleFrom_cuts hcuts hm]
  rfl

/-! ### Runs of a fixed length -/

theorem flatten_runs {n : Nat} (hn : 0 < n) (cs : List Char) : (runs n cs).flatten = cs := by
  fun_induction runs n cs with
  | case1 cs h =>
    -- There are no runs for the empty list only.
    have hcs : cs = [] := h.resolve_left (Nat.ne_of_gt hn)
    rw [hcs, List.flatten_nil]
  | case2 cs h ih => rw [List.flatten_cons, ih, List.take_append_drop]

theorem ne_nil_of_mem_runs {n : Nat} {run cs : List Char} (h : run ∈ runs n cs) : run ≠ [] := by
  fun_induction runs n cs with
  | case1 cs _ => exact absurd h List.not_mem_nil
  | case2 cs hne ih =>
    rw [not_or] at hne
    rcases List.mem_cons.1 h with rfl | h
    · rw [ne_eq, List.take_eq_nil_iff, not_or]
      exact hne
    · exact ih h

/-- The pieces that the model of runs makes of a word are a cut of it. -/
theorem cut_wordPieces {n : Nat} (hn : 0 < n) (word : List Char) :
    Cut defaultMarker (String.ofList word) (wordPieces n word) := by
  have hflatten := flatten_runs hn word
  have hne : ∀ run ∈ runs n word, run ≠ [] := fun _ => ne_nil_of_mem_runs
  unfold wordPieces
  cases hruns : runs n word with
  | nil =>
    -- No runs: the word is empty, and its only piece is the marker.
    rw [hruns, List.flatten_nil] at hflatten
    rw [← hflatten]
    exact .intro "" [] (fun _ h => absurd h List.not_mem_nil) rfl
  | cons first rest =>
    rw [hruns, List.flatten_cons] at hflatten
    rw [hruns, List.forall_mem_cons] at hne
    have hpieces : Cut defaultMarker (String.ofList word)
        (marked defaultMarker (String.ofList first) :: rest.map String.ofList) := by
      refine .intro _ _ (fun piece hpiece => ?_) ?_
      · obtain ⟨run, hrun, rfl⟩ := List.mem_map.1 hpiece
        rw [ne_eq, ← String.toList_eq_nil_iff, String.toList_ofList]
        exact hne.2 run hrun
      · rw [← String.toList_inj, String.toList_append, String.toList_join, List.flatMap_map,
          String.toList_ofList, String.toList_ofList, ← hflatten]
        simp only [String.toList_ofList, List.flatMap_id']
    rw [marked, String.toList_ofList] at hpieces
    exact hpieces

/-! ### Texts -/

/-- The words of a text are what stands between its spaces. -/
theorem words_eq_splitOn (cs : List Char) : words cs = cs.splitOn ' ' := by
  induction cs with
  | nil => rfl
  | cons c cs ih =>
    rw [words, ih, List.splitOn_cons_eq_if_modifyHead]
    by_cases hc : c = ' '
    · rw [if_pos hc, if_pos (beq_iff_eq.2 hc)]
    · rw [if_neg hc, if_neg (mt beq_iff_eq.1 hc)]
      -- There is always a first word, to which the character is added.
      cases hs : cs.splitOn ' ' with
      | nil => exact absurd hs (List.splitOn_ne_nil _ _)
      | cons w ws => rfl

theorem subset_of_mem_words {w cs : List Char} (h : w ∈ words cs) : w ⊆ cs := by
  induction cs generalizing w with
  | nil =>
    rw [List.mem_singleton.1 h]
    exact List.Subset.refl _
  | cons c cs ih =>
    rw [words] at h
    split at h
    · rcases List.mem_cons.1 h with rfl | h
      · exact List.nil_subset _
      · exact List.subset_cons_of_subset c (ih h)
    · split at h
      · rw [List.mem_singleton.1 h]
        exact List.cons_subset_cons c (List.nil_subset _)
      · next first rest hwords =>
        rw [hwords] at ih
        rcases List.mem_cons.1 h with rfl | h
        · exact List.cons_subset_cons c (ih List.mem_cons_self)
        · exact List.subset_cons_of_subset c (ih (List.mem_cons_of_mem _ h))

/-- Words with single spaces between them are the text that they were taken from. -/
theorem intercalate_words (text : String) :
    " ".intercalate ((words text.toList).map String.ofList) = text := by
  have hlists : (words text.toList).map (String.toList ∘ String.ofList) = words text.toList := by
    refine (List.map_congr_left fun w _ => ?_).trans (List.map_id _)
    exact String.toList_ofList
  rw [← String.toList_inj, String.toList_intercalate, List.map_map, hlists, words_eq_splitOn]
  exact List.intercalate_splitOn ' '

/-- The pieces that the model of runs makes of a text segment its words. -/
theorem segments_chunks {n : Nat} (hn : 0 < n) (text : String) :
    Segments defaultMarker ((words text.toList).map String.ofList) (Model.chunks n text) := by
  refine ⟨(words text.toList).map (wordPieces n), ?_, ?_⟩
  · rw [List.forall₂_map_left_iff, List.forall₂_map_right_iff, List.forall₂_same]
    exact fun w _ => cut_wordPieces hn w
  · -- The model makes no empty pieces, so none are left out.
    rw [← List.flatMap_def]
    refine List.filter_eq_self.2 fun piece hpiece => ?_
    obtain ⟨w, -, hpiece⟩ := List.mem_flatMap.1 hpiece
    exact decide_eq_true ((cut_wordPieces hn w).ne_empty piece hpiece)

/-! ### Any pieces

Nothing is asked of the pieces here: they may have markers inside, several in a row, or none at
all. A marker in front of a piece is used up where a word starts, and nothing else is. -/

/-- Induction along pieces, by how the first one begins. -/
@[elab_as_elim]
theorem pieces_induction {motive : List String → Prop} (marker : Char) (pieces : List String)
    (nil : motive []) (empty : ∀ pieces, motive pieces → motive ("" :: pieces))
    (marked : ∀ text pieces, motive pieces → motive (marked marker text :: pieces))
    (unmarked : ∀ piece pieces, piece ≠ "" → opens marker piece = false → motive pieces →
      motive (piece :: pieces)) : motive pieces := by
  induction pieces with
  | nil => exact nil
  | cons piece pieces ih =>
    by_cases hne : piece = ""
    · exact hne ▸ empty pieces ih
    · by_cases hopens : opens marker piece = true
      · -- The first character is the marker, and the others are the text behind it.
        obtain ⟨cs, hcs⟩ := List.head?_eq_some_iff.1 (eq_of_beq hopens)
        have hpiece : piece = Subword.marked marker (String.ofList cs) := by
          rw [Subword.marked, String.toList_ofList, ← hcs, String.ofList_toList]
        exact hpiece ▸ marked (String.ofList cs) pieces ih
      · exact unmarked piece pieces hne (Bool.of_not_eq_true hopens) ih

/-- Words one after the other, each behind the marker. -/
def written (marker : Char) (words : List String) : String :=
  String.join (words.map (marked marker))

theorem written_cons (word : String) (words : List String) :
    written marker (word :: words) = marked marker word ++ written marker words :=
  String.join_cons

theorem marked_append (a b : String) : marked marker (a ++ b) = marked marker a ++ b := by
  rw [← String.toList_inj, String.toList_append]
  simp only [marked, String.toList_ofList, String.toList_append, List.cons_append]

theorem marked_injective {a b : String} (h : marked marker a = marked marker b) : a = b := by
  rw [← String.toList_inj, marked, marked, String.toList_ofList, String.toList_ofList] at h
  exact String.toList_inj.1 (List.cons.inj h).2

/-- A scan that is in a word writes the word and all pieces to come. -/
theorem written_reassembleFrom (word : String) (pieces : List String) :
    written marker (reassembleFrom marker (some word) pieces) =
      marked marker word ++ String.join pieces := by
  induction pieces using pieces_induction marker generalizing word with
  | nil => rw [reassembleFrom, Option.toList_some, written_cons, written, List.map_nil]
  | empty pieces ih => rw [reassembleFrom_empty, ih, String.join_cons, String.empty_append]
  | marked text pieces ih =>
    rw [reassembleFrom_marked, Option.toList_some, List.singleton_append, written_cons, ih,
      String.join_cons]
  | unmarked piece pieces hne hopens ih =>
    rw [reassembleFrom_unmarked hne hopens, Option.getD_some, ih, marked_append, String.join_cons,
      String.append_assoc]

/-- A scan that is in a word gives that word, and one more for each piece that starts one. -/
theorem length_reassembleFrom (word : String) (pieces : List String) :
    (reassembleFrom marker (some word) pieces).length = pieces.countP (opens marker) + 1 := by
  induction pieces using pieces_induction marker generalizing word with
  | nil => rfl
  | empty pieces ih =>
    rw [reassembleFrom_empty, ih, List.countP_cons_of_neg (by simp [opens_empty])]
  | marked text pieces ih =>
    rw [reassembleFrom_marked, Option.toList_some, List.singleton_append, List.length_cons, ih,
      List.countP_cons_of_pos (opens_marked text)]
  | unmarked piece pieces hne hopens ih =>
    rw [reassembleFrom_unmarked hne hopens, ih, List.countP_cons_of_neg (by simp [hopens])]

/-- The first piece that is not empty has no marker in front. -/
def headless (marker : Char) (pieces : List String) : Bool :=
  (pieces.find? (· ≠ "")).any (!opens marker ·)

/-! ### The main statements -/

/-- **Putting pieces together undoes every segmentation.** Pieces that segment words without the
marker spell the words, and a text without the default marker comes back from the pieces of the
model of runs, with all its spaces. -/
theorem segmentation_undone :
    (∀ (marker : Char) (words pieces : List String), (∀ word ∈ words, marker ∉ word.toList) →
      Segments marker words pieces → reassemble marker pieces = words) ∧
    ∀ (n : Nat) (text : String), 1 ≤ n → defaultMarker ∉ text.toList →
      join defaultMarker (Model.chunks n text) = text := by
  refine ⟨fun marker words pieces hm h => h.reassemble hm, fun n text hn hm => ?_⟩
  have hwords : ∀ word ∈ (words text.toList).map String.ofList, defaultMarker ∉ word.toList := by
    intro word hword
    obtain ⟨w, hw, rfl⟩ := List.mem_map.1 hword
    rw [String.toList_ofList]
    exact fun hmem => hm (subset_of_mem_words hw hmem)
  rw [join, (segments_chunks hn text).reassemble hwords, intercalate_words]

/-- Two words and an empty one between them, in pieces some of which are empty or just the marker,
and a text that begins with a space and has two in a row. -/
theorem segmentation_undone_spaces :
    reassemble '#' ["", "#", "ab", "", "c", "#", "#d"] = ["abc", "", "d"] ∧
      join defaultMarker (Model.chunks 2 " abc  d") = " abc  d" := by
  refine ⟨segmentation_undone.1 '#' _ _ (by decide) ⟨[["#", "ab", "c"], ["#"], ["#d"]], ?_, rfl⟩,
    segmentation_undone.2 2 _ (by decide) (by decide)⟩
  refine .cons (.intro "" ["ab", "c"] (by decide) rfl) (.cons ?_ (.cons ?_ .nil))
  · exact .intro "" [] (by decide) rfl
  · exact .intro "d" [] (by decide) rfl

/-- **Putting pieces together loses nothing.** The words of any pieces, each behind the marker, are
the pieces one after the other. If the first piece that is not empty has no marker in front, the
first word has none either. There is one word for each piece with the marker in front, and in that
case one more. -/
theorem reassembly_conserves (marker : Char) (pieces : List String) :
    (headless marker pieces = false →
      written marker (reassemble marker pieces) = String.join pieces) ∧
    (headless marker pieces = true → ∃ word words, reassemble marker pieces = word :: words ∧
      word ++ written marker words = String.join pieces) ∧
    (reassemble marker pieces).length =
      pieces.countP (opens marker) + if headless marker pieces = true then 1 else 0 := by
  unfold reassemble
  induction pieces using pieces_induction marker with
  | nil => exact ⟨fun _ => rfl, nofun, rfl⟩
  | empty pieces ih =>
    have hheadless : headless marker ("" :: pieces) = headless marker pieces := rfl
    rw [reassembleFrom_empty, hheadless, String.join_cons, String.empty_append,
      List.countP_cons_of_neg (by simp [opens_empty])]
    exact ih
  | marked text pieces =>
    have hheadless : headless marker (marked marker text :: pieces) = false := by
      simp [headless, marked_ne_empty, opens_marked]
    rw [reassembleFrom_marked, hheadless, Option.toList_none, List.nil_append,
      written_reassembleFrom, length_reassembleFrom, List.countP_cons_of_pos (opens_marked text)]
    exact ⟨fun _ => String.join_cons.symm, nofun, rfl⟩
  | unmarked piece pieces hne hopens =>
    have hheadless : headless marker (piece :: pieces) = true := by
      simp [headless, hne, hopens]
    have hwritten : written marker (reassembleFrom marker (some piece) pieces) = _ :=
      written_reassembleFrom piece pieces
    have hlength : (reassembleFrom marker (some piece) pieces).length = _ :=
      length_reassembleFrom piece pieces
    rw [reassembleFrom_unmarked hne hopens, hheadless, Option.getD_none, String.empty_append,
      List.countP_cons_of_neg (by simp [hopens]), String.join_cons]
    refine ⟨nofun, fun _ => ?_, hlength⟩
    -- The scan is in a word, so there is a first one; without its marker it is what the scan wrote.
    cases hwords : reassembleFrom marker (some piece) pieces with
    | nil =>
      rw [hwords] at hlength
      exact absurd hlength nofun
    | cons word words =>
      rw [hwords, written_cons, ← marked_append, ← marked_append] at hwritten
      exact ⟨word, words, rfl, marked_injective hwritten⟩

/-- Pieces of which the first has no marker in front but one inside, and of which others have two or
nothing but one. -/
theorem reassembly_conserves_markers :
    headless '#' ["", "a#b", "##", "#", "c"] = true ∧
    ∃ word words, reassemble '#' ["", "a#b", "##", "#", "c"] = word :: words ∧
      word ++ written '#' words = "a#b###c" ∧ (word :: words).length = 3 := by
  obtain ⟨-, hwritten, hlength⟩ := reassembly_conserves '#' ["", "a#b", "##", "#", "c"]
  obtain ⟨word, words, hwords, hjoin⟩ := hwritten rfl
  rw [hwords] at hlength
  exact ⟨rfl, word, words, hwords, hjoin, hlength⟩

end Subword

end TypedSyntax
