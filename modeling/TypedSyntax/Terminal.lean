/-!
# Terminals of C

Words and operators of C that trees show as constructors without fields: qualifiers, storage
classes, operators, and the types of literals. They come in groups, one for each sum type of
terminals, and a word may stand in several groups.

In every group but the last a constructor stands for one word. In the group of the literal types
several spellings share a constructor, and one of them is the canonical one.

* `Terminal.constructor?`: the constructor for a word.
* `Terminal.token?`: the word for a constructor; for a literal type the canonical spelling.
-/

namespace TypedSyntax

namespace Terminal

/-- The terminals of one sum type. -/
structure Group where
  typeName : String
  /-- Words, each with its constructor. -/
  entries : List (String × String)

/-- The sum type of the literal types. -/
def literalType : String :=
  "LITERAL_TYPE"

/-- All groups. -/
def groups : List Group :=
  [ ⟨"QUAL",
      [("const", "Const"), ("volatile", "Volatile"), ("restrict", "Restrict")]⟩,
    ⟨"DIM_QUAL",
      [("const", "ConstDim"), ("volatile", "VolatileDim"), ("restrict", "RestrictDim"),
       ("static", "StaticDim")]⟩,
    ⟨"STORAGE",
      [("extern", "Extern"), ("static", "Static"), ("register", "Register"), ("auto", "Auto"),
       ("typedef", "TypedefStorage")]⟩,
    ⟨"FUNCSPEC",
      [("inline", "Inline")]⟩,
    ⟨"REF_TYPE",
      [("->", "Arrow"), (".", "Dot")]⟩,
    ⟨"ASSIGN_OPER",
      [("=", "NormalAssign"), ("+=", "AddAssign"), ("-=", "SubAssign"), ("*=", "MulAssign"),
       ("/=", "DivAssign"), ("%=", "ModAssign"), ("&=", "BitAndAssign"), ("|=", "BitOrAssign"),
       ("^=", "BitXorAssign"), ("<<=", "LShiftAssign"), (">>=", "RShiftAssign")]⟩,
    ⟨"UNARY_OP",
      [("+", "UAdd"), ("-", "USub"), ("p++", "PreInc"), ("++", "PostInc"), ("p--", "PreDec"),
       ("--", "PostDec"), ("!", "Not"), ("~", "BitNot"), ("*", "Deref"), ("sizeof", "SizeOf"),
       ("&", "AddressOf")]⟩,
    ⟨"BINARY_OP",
      [("=", "Assign"), ("+", "Add"), ("-", "Sub"), ("*", "Mul"), ("/", "Div"), ("%", "Mod"),
       ("==", "Eq"), ("!=", "NotEq"), ("<", "Lt"), ("<=", "LtE"), (">", "Gt"), (">=", "GtE"),
       ("&&", "And"), ("||", "Or"), ("&", "BitAnd"), ("|", "BitOr"), ("^", "BitXor"),
       ("<<", "LShift"), (">>", "RShift")]⟩,
    ⟨literalType,
      [("int", "IntLiteral"), ("long int", "IntLiteral"), ("long long int", "IntLiteral"),
       ("unsigned int", "IntLiteral"), ("unsigned long int", "IntLiteral"),
       ("unsigned long long int", "IntLiteral"), ("float", "FloatLiteral"),
       ("double", "FloatLiteral"), ("long double", "FloatLiteral"), ("char", "CharLiteral"),
       ("string", "StringLiteral")]⟩]

/-- The canonical spelling of each literal type. -/
def literalCanonical : List (String × String) :=
  [("int", "IntLiteral"), ("double", "FloatLiteral"), ("char", "CharLiteral"),
   ("string", "StringLiteral")]

/-- The sum types of terminals. -/
def types : List String :=
  groups.map Group.typeName

/-- Whether a name is that of a sum type of terminals. -/
def isType (typeName : String) : Bool :=
  groups.any (·.typeName == typeName)

/-- The words of a group, each with its constructor. -/
def table? (typeName : String) : Option (List (String × String)) :=
  (groups.find? (·.typeName == typeName)).map Group.entries

/-- The words by which the constructors of a group are spelled. -/
def spelling? (typeName : String) : Option (List (String × String)) :=
  if typeName = literalType then some literalCanonical else table? typeName

/-- The constructor for a word. -/
def constructor? (typeName token : String) : Option String :=
  (table? typeName).bind fun entries => entries.lookup token

/-- The word for a constructor. -/
def token? (typeName constructor : String) : Option String :=
  (spelling? typeName).bind fun entries =>
    (entries.find? (·.2 == constructor)).map Prod.fst

/-- Whether a word starts with a letter. -/
def startsWithLetter (token : String) : Bool :=
  token.toList.head?.any Char.isAlpha

/-- The words that do not start with a letter, each once, in the order of the groups. -/
def operators : List String :=
  ((groups.flatMap Group.entries).map Prod.fst |>.filter (!startsWithLetter ·)).eraseDups

end Terminal

end TypedSyntax
