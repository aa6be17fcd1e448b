/-!
# Keywords of C

The reserved words, in the order of the lexer's table.
-/

namespace TypedSyntax

/-- The reserved words of C. -/
def keywords : List String :=
  ["auto", "break", "case", "char", "const", "continue", "default", "do", "double", "else",
   "enum", "extern", "float", "for", "goto", "if", "inline", "int", "long", "register",
   "offsetof", "restrict", "return", "short", "signed", "sizeof", "static", "struct", "switch",
   "typedef", "union", "unsigned", "void", "volatile", "while", "__int128", "_Bool", "_Complex",
   "_Noreturn", "_Thread_local", "_Static_assert", "_Atomic", "_Alignof", "_Alignas", "_Pragma"]

/-- Whether a word is reserved. -/
def isKeyword (word : String) : Bool :=
  keywords.contains word

end TypedSyntax
