/-!
# Positions and cursors

A `Position` counts bytes from zero, and lines and columns from one; a column is a number of
characters. A `Cursor` is a place in a text: what is still to be read, and the position reached.

* `Position.advance`: the position after one more character.
* `Cursor.advance`, `Cursor.advanceWhile`: move over one character, or over a longest run.
* `Cursor.slice`: the characters of the whole text between two byte offsets.
-/

namespace TypedSyntax

/-- A place in a text. -/
structure Position where
  /-- Bytes before this place, in UTF-8. -/
  byte : Nat := 0
  /-- One more than the number of line ends before this place. -/
  line : Nat := 1
  /-- One more than the number of characters since the last line end. -/
  column : Nat := 1
  deriving DecidableEq

namespace Position

/-- The position after the character `c`. -/
def advance (p : Position) (c : Char) : Position where
  byte := p.byte + c.utf8Size
  line := if c = '\n' then p.line + 1 else p.line
  column := if c = '\n' then 1 else p.column + 1

/-- The position after a run of characters. -/
def advanceAll (p : Position) (cs : List Char) : Position :=
  cs.foldl advance p

end Position

/-- The characters left after the first `n` bytes. -/
def dropBytes : Nat → List Char → List Char
  | _, [] => []
  | n, c :: cs => if n = 0 then c :: cs else dropBytes (n - c.utf8Size) cs

/-- The characters that start within the first `n` bytes. -/
def takeBytes : Nat → List Char → List Char
  | _, [] => []
  | n, c :: cs => if n = 0 then [] else c :: takeBytes (n - c.utf8Size) cs

/-- A place in a text together with the text. -/
structure Cursor where
  /-- The whole text. -/
  text : List Char
  /-- What is still to be read. -/
  rest : List Char
  /-- Where `rest` starts. -/
  position : Position

namespace Cursor

/-- The cursor at the start of a text. -/
def ofText (s : String) : Cursor where
  text := s.toList
  rest := s.toList
  position := {}

/-- Whether everything has been read. -/
def atEnd (k : Cursor) : Bool :=
  k.rest.isEmpty

/-- The next character. -/
def peek? (k : Cursor) : Option Char :=
  k.rest.head?

/-- The character after the next one. -/
def peekNext? (k : Cursor) : Option Char :=
  k.rest.tail.head?

/-- Move over the next character, if there is one. -/
def advance (k : Cursor) : Cursor :=
  match k.rest with
  | [] => k
  | c :: cs => { k with rest := cs, position := k.position.advance c }

/-- Move over the longest run of characters that satisfy `p`. -/
def advanceWhile (p : Char → Bool) (k : Cursor) : Cursor :=
  { k with
    rest := k.rest.dropWhile p
    position := k.position.advanceAll (k.rest.takeWhile p) }

/-- The text between two byte offsets. -/
def slice (k : Cursor) (start stop : Nat) : String :=
  String.ofList (takeBytes (stop - start) (dropBytes start k.text))

end Cursor

end TypedSyntax
