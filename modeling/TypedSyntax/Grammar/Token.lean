import TypedSyntax.Grammar.TextError
import TypedSyntax.Text.Blank

/-!
# Tokens of grammar text

Grammar text is a sequence of tokens: seven punctuation marks, and words of ASCII letters, digits
and underscores that do not start with a digit. Between tokens there may be blanks, and comments,
which run from two dashes up to the end of the line. A word goes on as long as it can.

The scanner reads one character after the other. The only thing it remembers is which characters
it is passing over (`Skipping`): none between tokens, the rest of a word whose token has been
given out, or the rest of a comment.

* `Token.scan`: the tokens of a text, closed by one end token, or the first character that starts
  no token.

A scanner that moves a cursor over whole runs of characters, and cuts the texts of tokens out of the
source, reads the same (`Cursor.tokens_ofText`).
-/

namespace TypedSyntax

/-- The kinds of token. -/
inductive TokenKind where
  /-- A word other than `primitive`. -/
  | identifier
  /-- The word `primitive`. -/
  | primitive
  | equals
  | pipe
  | leftParen
  | rightParen
  | comma
  | star
  | question
  /-- The end of the text. -/
  | eof
  deriving DecidableEq

namespace TokenKind

/-- The wording of a kind of token. -/
def describe : TokenKind → String
  | identifier => "identifier"
  | primitive => "'primitive'"
  | equals => "'='"
  | pipe => "'|'"
  | leftParen => "'('"
  | rightParen => "')'"
  | comma => "','"
  | star => "'*'"
  | question => "'?'"
  | eof => "end of input"

/-- The kind of a punctuation mark. -/
def ofMark? : Char → Option TokenKind
  | '=' => some equals
  | '|' => some pipe
  | '(' => some leftParen
  | ')' => some rightParen
  | ',' => some comma
  | '*' => some star
  | '?' => some question
  | _ => none

/-- The kind of a word. -/
def ofWord (text : String) : TokenKind :=
  if text = "primitive" then primitive else identifier

end TokenKind

/-- A token, with its text and the place where it starts. -/
structure Token where
  kind : TokenKind
  position : Position
  text : String
  deriving DecidableEq

/-- Whether a word may start with a character. -/
def isWordStart (c : Char) : Bool :=
  c.isAlpha || c == '_'

/-- Whether a word may go on with a character. -/
def isWordChar (c : Char) : Bool :=
  c.isAlphanum || c == '_'

/-- The characters that the scanner is passing over. -/
inductive Skipping where
  /-- None: the next character is looked at. -/
  | nothing
  /-- The rest of a word. -/
  | word
  /-- The rest of a line. -/
  | comment
  deriving DecidableEq

namespace Skipping

/-- Whether a character is passed over. -/
def covers : Skipping → Char → Bool
  | nothing, _ => false
  | word, c => isWordChar c
  | comment, c => c ≠ '\n'

end Skipping

namespace Token

/-- The token that ends a text. -/
def atEnd (place : Position) : Token :=
  ⟨.eof, place, ""⟩

/-- The token that starts with the character `c` and may go on with characters of `rest`, and what
is passed over after its first character. -/
def startingAt? (place : Position) (c : Char) (rest : List Char) : Option (Token × Skipping) :=
  match TokenKind.ofMark? c with
  | some kind => some (⟨kind, place, c.toString⟩, .nothing)
  | none =>
    if isWordStart c then
      let text := String.ofList (c :: rest.takeWhile isWordChar)
      some (⟨.ofWord text, place, text⟩, .word)
    else none

/-- The tokens from a place on. -/
def scanFrom (skipping : Skipping) (place : Position) : List Char → Except TextError (List Token)
  | [] => .ok [atEnd place]
  | c :: cs =>
    if skipping.covers c then scanFrom skipping (place.advance c) cs
    -- The character ends whatever was passed over. It may be the line end after a comment, which
    -- is itself blank, or the first character after a word.
    else if isBlank c then scanFrom .nothing (place.advance c) cs
    -- The second dash is no line end, so the comment covers it.
    else if c = '-' ∧ cs.head? = some '-' then scanFrom .comment (place.advance c) cs
    else
      match startingAt? place c cs with
      | some (token, skipping) => (scanFrom skipping (place.advance c) cs).map (token :: ·)
      | none => .error (.invalidCharacter c place.line place.column)

/-- The tokens of a text. -/
def scan (text : String) : Except TextError (List Token) :=
  scanFrom .nothing {} text.toList

end Token

end TypedSyntax
