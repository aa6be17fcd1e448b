import TypedSyntax.Text.Invisible

/-!
# Quoted text

How messages and rendered trees show a string or a character: between quotation marks, with a
backslash before the mark and before a backslash, short names for the null character, the tab and
the two line ends, and the number of every other invisible character. The quotation mark is
`"` around a string and `'` around a character; the other mark stands for itself.
-/

namespace TypedSyntax

/-- How one character is spelled between two `mark`s. -/
def quotedChar (mark c : Char) : List Char :=
  if c = mark ∨ c = '\\' then ['\\', c]
  else if c = '\x00' then ['\\', '0']
  else if c = '\t' then ['\\', 't']
  else if c = '\n' then ['\\', 'n']
  else if c = '\r' then ['\\', 'r']
  else if isInvisible c then
    ['\\', 'u', '\x7b'] ++ Nat.toDigits 16 c.toNat ++ ['\x7d']
  else [c]

/-- A text between two `mark`s. -/
def quotedChars (mark : Char) (cs : List Char) : List Char :=
  mark :: (cs.flatMap (quotedChar mark) ++ [mark])

/-- A string between double quotation marks. -/
def quoted (s : String) : String :=
  String.ofList (quotedChars '\x22' s.toList)

/-- A character between single quotation marks. -/
def quotedCharacter (c : Char) : String :=
  String.ofList (quotedChars '\x27' [c])

end TypedSyntax
