import TypedSyntax.Grammar.Error
import TypedSyntax.Text.Cursor

/-!
# Errors of grammar text

Why a text is not the text of a grammar: a character that starts no token, a token that cannot
stand where it does, a text that stops too early, or declarations that do not fit together.
-/

namespace TypedSyntax

/-- What grammar text has to go on with at some place. -/
inductive Expected where
  | typeName
  | equals
  | constructorName
  | primitiveName
  | fieldType
  | fieldName
  | closeParen
  deriving DecidableEq

namespace Expected

/-- The wording of an expectation. -/
def describe : Expected → String
  | typeName => "type name"
  | equals => "'='"
  | constructorName => "constructor name"
  | primitiveName => "primitive type name"
  | fieldType => "field type"
  | fieldName => "field name"
  | closeParen => "')'"

end Expected

/-- Why a text is not the text of a grammar. -/
inductive TextError where
  /-- A token stands where something else is expected. -/
  | unexpectedToken (found : String) (expected : Expected) (line column : Nat)
  /-- The text ends where something is still expected. -/
  | unexpectedEnd (expected : Expected)
  /-- A character starts no token. -/
  | invalidCharacter (c : Char) (line column : Nat)
  /-- The declarations can be read but do not fit together. -/
  | grammar (error : GrammarError)
  deriving DecidableEq

namespace TextError

/-- The wording of an error. -/
def message : TextError → String
  | unexpectedToken found expected line column =>
    s!"unexpected token '{found}' at {line}:{column}, expected {expected.describe}"
  | unexpectedEnd expected => s!"unexpected end of input, expected {expected.describe}"
  | invalidCharacter c line column =>
    "invalid character " ++ quotedCharacter c ++ s!" at {line}:{column}"
  | grammar error => error.message

end TextError

end TypedSyntax
