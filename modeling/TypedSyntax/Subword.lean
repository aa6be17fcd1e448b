/-!
# Subwords

A text may be cut into pieces by a model that is given from outside. A piece that starts a word
carries a marker in front; any other piece goes on with the word before it. Words are separated by
single spaces in the text.

* `Subword.reassemble`: the words that a list of pieces spells, whatever the pieces are. Empty
  pieces do not count. A marker alone starts an empty word, and if the first piece has no marker it
  still starts the first word.
* `Subword.Model.chunks`, `Subword.Model.table`: two models, one that cuts words into runs of a
  fixed length, and one that lists the pieces of given texts.
-/

namespace TypedSyntax

namespace Subword

/-- The marker that models use by default, a low block. -/
def defaultMarker : Char :=
  '\u2581'

/-- The words that pieces spell after the word `current`, if a word has been started. -/
def reassembleFrom (marker : Char) (current : Option String) : List String → List String
  | [] => current.toList
  | piece :: pieces =>
    match piece.toList with
    | [] => reassembleFrom marker current pieces
    | c :: cs =>
      if c = marker then
        current.toList ++ reassembleFrom marker (some (String.ofList cs)) pieces
      else reassembleFrom marker (some (current.getD "" ++ piece)) pieces

/-- The words that pieces spell. -/
def reassemble (marker : Char) (pieces : List String) : List String :=
  reassembleFrom marker none pieces

/-- The text that pieces spell. -/
def join (marker : Char) (pieces : List String) : String :=
  " ".intercalate (reassemble marker pieces)

/-- A model: the pieces of a text. -/
abbrev Model := String → List String

/-- The words of a text, cut at every single space: two spaces in a row enclose an empty word. -/
def words : List Char → List (List Char)
  | [] => [[]]
  | c :: cs =>
    if c = ' ' then [] :: words cs
    else
      match words cs with
      | [] => [[c]]
      | w :: ws => (c :: w) :: ws

/-- The characters in runs of `n`, of which the last may be shorter. -/
def runs (n : Nat) (cs : List Char) : List (List Char) :=
  if n = 0 ∨ cs = [] then [] else cs.take n :: runs n (cs.drop n)
termination_by cs.length
decreasing_by
  have : 0 < cs.length := List.length_pos_iff.2 (by grind)
  simp only [List.length_drop]
  omega

/-- The pieces of a word: runs of `n` characters, the first behind the marker. -/
def wordPieces (n : Nat) (word : List Char) : List String :=
  match runs n word with
  | [] => [String.ofList [defaultMarker]]
  | first :: rest => String.ofList (defaultMarker :: first) :: rest.map String.ofList

/-- The model that cuts every word into runs of `n` characters. -/
def Model.chunks (n : Nat) : Model :=
  fun text => (words text.toList).flatMap (wordPieces n)

/-- The model that lists the pieces of some texts and leaves every other text in one piece. -/
def Model.table (entries : List (String × List String)) : Model :=
  fun text => (entries.lookup text).getD [text]

end Subword

end TypedSyntax
