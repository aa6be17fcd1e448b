/-!
# Kinds of C node

The closed vocabulary of C nodes. A kind has a name, which grammars use for the constructor, and
declares attributes in order. An attribute is single, or it holds a list.

* `Kind.all`: every kind, in the alphabetical order of the names.
* `Kind.ofName?`, `Kind.attrIndex?`: search by name.
-/

namespace TypedSyntax

/-- An attribute that a kind of node declares. -/
structure AttrSpec where
  name : String
  /-- Whether the attribute holds a list of values. -/
  isList : Bool
  deriving DecidableEq

namespace AttrSpec

/-- An attribute that holds one value or none. -/
def single (name : String) : AttrSpec :=
  ⟨name, false⟩

/-- An attribute that holds a list of values. -/
def many (name : String) : AttrSpec :=
  ⟨name, true⟩

end AttrSpec

/-- A kind of C node. -/
inductive Kind where
  | arrayDecl
  | arrayRef
  | assignment
  | binaryOp
  | breakStmt
  | caseStmt
  | cast
  | compound
  | compoundLiteral
  | constant
  | continueStmt
  | decl
  | declList
  | defaultStmt
  | doWhileStmt
  | ellipsisParam
  | emptyStmt
  | enum
  | enumerator
  | enumeratorList
  | exprList
  | file
  | forStmt
  | funcCall
  | funcDecl
  | funcDef
  | gotoStmt
  | id
  | identifierType
  | ifStmt
  | initList
  | labelStmt
  | namedInitializer
  | paramList
  | pragma
  | ptrDecl
  | returnStmt
  | staticAssert
  | struct
  | structRef
  | switchStmt
  | ternaryOp
  | typeDecl
  | typedef
  | typename
  | unaryOp
  | union
  | whileStmt
  deriving DecidableEq

namespace Kind

/-- Every kind, in the alphabetical order of the names. -/
def all : List Kind :=
  [arrayDecl, arrayRef, assignment, binaryOp, breakStmt, caseStmt, cast, compound,
   compoundLiteral, constant, continueStmt, decl, declList, defaultStmt, doWhileStmt,
   ellipsisParam, emptyStmt, enum, enumerator, enumeratorList, exprList, file, forStmt, funcCall,
   funcDecl, funcDef, gotoStmt, id, identifierType, ifStmt, initList, labelStmt,
   namedInitializer, paramList, pragma, ptrDecl, returnStmt, staticAssert, struct, structRef,
   switchStmt, ternaryOp, typeDecl, typedef, typename, unaryOp, union, whileStmt]

/-- The name of a kind. -/
def name : Kind → String
  | arrayDecl => "ArrayDecl"
  | arrayRef => "ArrayRef"
  | assignment => "Assignment"
  | binaryOp => "BinaryOp"
  | breakStmt => "Break"
  | caseStmt => "Case"
  | cast => "Cast"
  | compound => "Compound"
  | compoundLiteral => "CompoundLiteral"
  | constant => "Constant"
  | continueStmt => "Continue"
  | decl => "Decl"
  | declList => "DeclList"
  | defaultStmt => "Default"
  | doWhileStmt => "DoWhile"
  | ellipsisParam => "EllipsisParam"
  | emptyStmt => "EmptyStatement"
  | enum => "Enum"
  | enumerator => "Enumerator"
  | enumeratorList => "EnumeratorList"
  | exprList => "ExprList"
  | file => "FileAST"
  | forStmt => "For"
  | funcCall => "FuncCall"
  | funcDecl => "FuncDecl"
  | funcDef => "FuncDef"
  | gotoStmt => "Goto"
  | id => "ID"
  | identifierType => "IdentifierType"
  | ifStmt => "If"
  | initList => "InitList"
  | labelStmt => "Label"
  | namedInitializer => "NamedInitializer"
  | paramList => "ParamList"
  | pragma => "Pragma"
  | ptrDecl => "PtrDecl"
  | returnStmt => "Return"
  | staticAssert => "StaticAssert"
  | struct => "Struct"
  | structRef => "StructRef"
  | switchStmt => "Switch"
  | ternaryOp => "TernaryOp"
  | typeDecl => "TypeDecl"
  | typedef => "Typedef"
  | typename => "Typename"
  | unaryOp => "UnaryOp"
  | union => "Union"
  | whileStmt => "While"

/-- The attributes of a kind, in declared order. -/
def attrs : Kind → List AttrSpec
  | arrayDecl => [.single "type", .single "dim", .many "dim_quals"]
  | arrayRef => [.single "name", .single "subscript"]
  | assignment => [.single "op", .single "lvalue", .single "rvalue"]
  | binaryOp => [.single "op", .single "left", .single "right"]
  | breakStmt => []
  | caseStmt => [.single "expr", .many "stmts"]
  | cast => [.single "to_type", .single "expr"]
  | compound => [.many "block_items"]
  | compoundLiteral => [.single "type", .single "init"]
  | constant => [.single "type", .single "value"]
  | continueStmt => []
  | decl =>
    [.single "name", .many "quals", .many "storage", .many "funcspec", .single "type",
     .single "init", .single "bitsize"]
  | declList => [.many "decls"]
  | defaultStmt => [.many "stmts"]
  | doWhileStmt => [.single "cond", .single "stmt"]
  | ellipsisParam => []
  | emptyStmt => []
  | enum => [.single "name", .single "values"]
  | enumerator => [.single "name", .single "value"]
  | enumeratorList => [.many "enumerators"]
  | exprList => [.many "exprs"]
  | file => [.many "ext"]
  | forStmt => [.single "init", .single "cond", .single "next", .single "stmt"]
  | funcCall => [.single "name", .single "args"]
  | funcDecl => [.single "args", .single "type"]
  | funcDef => [.single "decl", .many "param_decls", .single "body"]
  | gotoStmt => [.single "name"]
  | id => [.single "name"]
  | identifierType => [.many "names"]
  | ifStmt => [.single "cond", .single "iftrue", .single "iffalse"]
  | initList => [.many "exprs"]
  | labelStmt => [.single "name", .single "stmt"]
  | namedInitializer => [.many "name", .single "expr"]
  | paramList => [.many "params"]
  | pragma => [.single "string"]
  | ptrDecl => [.many "quals", .single "type"]
  | returnStmt => [.single "expr"]
  | staticAssert => [.single "cond", .single "message"]
  | struct => [.single "name", .many "decls"]
  | structRef => [.single "name", .single "type", .single "field"]
  | switchStmt => [.single "cond", .single "stmt"]
  | ternaryOp => [.single "cond", .single "iftrue", .single "iffalse"]
  | typeDecl => [.single "declname", .many "quals", .single "type"]
  | typedef => [.single "name", .many "quals", .many "storage", .single "type"]
  | typename => [.single "name", .many "quals", .single "type"]
  | unaryOp => [.single "op", .single "expr"]
  | union => [.single "name", .many "decls"]
  | whileStmt => [.single "cond", .single "stmt"]

/-- The kind with a given name. -/
def ofName? (name : String) : Option Kind :=
  all.find? (·.name == name)

/-- The names of the attributes of a kind, in declared order. -/
def attrNames (k : Kind) : List String :=
  k.attrs.map AttrSpec.name

/-- The place of an attribute in the declared order. -/
def attrIndex? (k : Kind) (name : String) : Option Nat :=
  k.attrs.findIdx? (·.name == name)

/-- The attribute with a given name. -/
def attr? (k : Kind) (name : String) : Option AttrSpec :=
  k.attrs.find? (·.name == name)

theorem mem_all (k : Kind) : k ∈ all := by
  cases k <;> decide

@[simp]
theorem ofName?_name (k : Kind) : ofName? k.name = some k := by
  have h : ∀ l ∈ all, ofName? l.name = some l := by decide +kernel
  exact h k (mem_all k)

theorem name_eq_of_ofName? {name : String} {k : Kind} (h : ofName? name = some k) :
    k.name = name := by
  have h := List.find?_some h
  simpa using h

theorem name_injective {k l : Kind} (h : k.name = l.name) : k = l := by
  have hk := ofName?_name k
  rw [h, ofName?_name] at hk
  exact (Option.some.inj hk).symm

end Kind

end TypedSyntax
