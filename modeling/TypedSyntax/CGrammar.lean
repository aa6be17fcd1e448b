import TypedSyntax.Grammar.Reader

/-!
# The grammar of C

The bundled grammar: the node vocabulary of C as one sum type `EXPR`, identifiers and strings as
the leaf types `IDENT` and `STR`, and a sum type for every group of terminals.
-/

namespace TypedSyntax

/-- The lines of the bundled grammar of C. -/
def cGrammarLines : List String :=
  [ "-- Abstract syntax of C, following the pycparser node vocabulary.",
    "-- Field names match the native node attribute names.",
    "",
    "primitive TOKEN",
    "",
    "EXPR = ArrayDecl(EXPR type, EXPR? dim, DIM_QUAL* dim_quals)",
    "     | ArrayRef(EXPR name, EXPR subscript)",
    "     | Assignment(ASSIGN_OPER op, EXPR lvalue, EXPR rvalue)",
    "     | BinaryOp(BINARY_OP op, EXPR left, EXPR right)",
    "     | Break",
    "     | Case(EXPR expr, EXPR* stmts)",
    "     | Cast(EXPR to_type, EXPR expr)",
    "     | Compound(EXPR* block_items)",
    "     | CompoundLiteral(EXPR type, EXPR init)",
    "     | Constant(LITERAL_TYPE type, STR value)",
    "     | Continue",
    "     | Decl(IDENT? name, QUAL* quals, STORAGE* storage, FUNCSPEC* funcspec,",
    "            EXPR type, EXPR? init, EXPR? bitsize)",
    "     | DeclList(EXPR* decls)",
    "     | Default(EXPR* stmts)",
    "     | DoWhile(EXPR cond, EXPR stmt)",
    "     | EllipsisParam",
    "     | EmptyStatement",
    "     | Enum(IDENT? name, EXPR? values)",
    "     | Enumerator(IDENT name, EXPR? value)",
    "     | EnumeratorList(EXPR* enumerators)",
    "     | ExprList(EXPR* exprs)",
    "     | FileAST(EXPR* ext)",
    "     | For(EXPR? init, EXPR? cond, EXPR? next, EXPR stmt)",
    "     | FuncCall(EXPR name, EXPR? args)",
    "     | FuncDecl(EXPR? args, EXPR type)",
    "     | FuncDef(EXPR decl, EXPR* param_decls, EXPR body)",
    "     | Goto(IDENT name)",
    "     | ID(IDENT name)",
    "     | IdentifierType(IDENT* names)",
    "     | If(EXPR cond, EXPR iftrue, EXPR? iffalse)",
    "     | InitList(EXPR* exprs)",
    "     | Label(IDENT name, EXPR stmt)",
    "     | NamedInitializer(EXPR* name, EXPR expr)",
    "     | ParamList(EXPR* params)",
    "     | Pragma(STR string)",
    "     | PtrDecl(QUAL* quals, EXPR type)",
    "     | Return(EXPR? expr)",
    "     | StaticAssert(EXPR cond, EXPR? message)",
    "     | Struct(IDENT? name, EXPR* decls)",
    "     | StructRef(EXPR name, REF_TYPE type, EXPR field)",
    "     | Switch(EXPR cond, EXPR stmt)",
    "     | TernaryOp(EXPR cond, EXPR iftrue, EXPR iffalse)",
    "     | TypeDecl(IDENT? declname, QUAL* quals, EXPR type)",
    "     | Typedef(IDENT name, QUAL* quals, STORAGE* storage, EXPR type)",
    "     | Typename(IDENT? name, QUAL* quals, EXPR type)",
    "     | UnaryOp(UNARY_OP op, EXPR expr)",
    "     | Union(IDENT? name, EXPR* decls)",
    "     | While(EXPR cond, EXPR stmt)",
    "",
    "-- Leaves: a single raw token, or subword pieces.",
    "IDENT = IdentToken(TOKEN token) | IdentSubword(TOKEN* pieces)",
    "STR = StrToken(TOKEN token) | StrSubword(TOKEN* pieces)",
    "",
    "-- Terminals.",
    "QUAL = Const | Volatile | Restrict",
    "DIM_QUAL = ConstDim | VolatileDim | RestrictDim | StaticDim",
    "STORAGE = Extern | Static | Register | Auto | TypedefStorage",
    "FUNCSPEC = Inline",
    "REF_TYPE = Arrow | Dot",
    "ASSIGN_OPER = NormalAssign | AddAssign | SubAssign | MulAssign | DivAssign | ModAssign",
    "            | BitAndAssign | BitOrAssign | BitXorAssign | LShiftAssign | RShiftAssign",
    "UNARY_OP = UAdd | USub | PreInc | PostInc | PreDec | PostDec | Not | BitNot | Deref | SizeOf | AddressOf",
    "BINARY_OP = Assign | Add | Sub | Mul | Div | Mod | Eq | NotEq | Lt | LtE | Gt | GtE",
    "          | And | Or | BitAnd | BitOr | BitXor | LShift | RShift",
    "LITERAL_TYPE = IntLiteral | FloatLiteral | CharLiteral | StringLiteral" ]

/-- The text of the bundled grammar of C: its lines, each with a line end. -/
def cGrammarText : String :=
  String.join (cGrammarLines.map (· ++ "\n"))

/-- The bundled grammar of C. -/
def cGrammar : Except TextError Grammar :=
  Grammar.ofText cGrammarText

end TypedSyntax
