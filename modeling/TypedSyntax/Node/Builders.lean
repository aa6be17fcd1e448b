import TypedSyntax.Node.Basic

/-!
# Building C nodes

Nodes of common kinds from their parts. Every builder gives one value for each attribute of its
kind, in declared order, and lists for the list attributes.
-/

namespace TypedSyntax

namespace Attr

/-- A text that may be missing. -/
def ofText? (text : Option String) : Attr Node :=
  text.elim .none .text

/-- A node that may be missing. -/
def ofNode? (node : Option Node) : Attr Node :=
  node.elim .none .node

/-- A list of texts. -/
def texts (texts : List String) : Attr Node :=
  .list (texts.map .text)

/-- A list of nodes. -/
def ofNodes (nodes : List Node) : Attr Node :=
  .list (nodes.map .node)

end Attr

namespace Node

/-- An identifier. -/
def id (name : String) : Node :=
  ⟨.id, [.text name]⟩

/-- A literal, with the word for its type. -/
def constant (type value : String) : Node :=
  ⟨.constant, [.text type, .text value]⟩

/-- A binary operation. -/
def binaryOp (op : String) (left right : Node) : Node :=
  ⟨.binaryOp, [.text op, .node left, .node right]⟩

/-- A unary operation. -/
def unaryOp (op : String) (expr : Node) : Node :=
  ⟨.unaryOp, [.text op, .node expr]⟩

/-- An assignment. -/
def assignment (op : String) (lvalue rvalue : Node) : Node :=
  ⟨.assignment, [.text op, .node lvalue, .node rvalue]⟩

/-- A type given by words, such as `unsigned int`. -/
def identifierType (names : List String) : Node :=
  ⟨.identifierType, [.texts names]⟩

/-- A type with the name and the qualifiers that a declaration gives it. -/
def typeDecl (declname : Option String) (quals : List String) (type : Node) : Node :=
  ⟨.typeDecl, [.ofText? declname, .texts quals, .node type]⟩

/-- A declaration without qualifiers, storage classes, specifiers and bit size. -/
def decl (name : Option String) (type : Node) (init : Option Node) : Node :=
  ⟨.decl, [.ofText? name, .list [], .list [], .list [], .node type, .ofNode? init, .none]⟩

/-- A block. -/
def compound (items : List Node) : Node :=
  ⟨.compound, [.ofNodes items]⟩

/-- A return statement. -/
def returnStmt (expr : Option Node) : Node :=
  ⟨.returnStmt, [.ofNode? expr]⟩

/-- A call. -/
def funcCall (name : Node) (args : Option Node) : Node :=
  ⟨.funcCall, [.node name, .ofNode? args]⟩

/-- A list of expressions. -/
def exprList (exprs : List Node) : Node :=
  ⟨.exprList, [.ofNodes exprs]⟩

/-- A source file. -/
def file (ext : List Node) : Node :=
  ⟨.file, [.ofNodes ext]⟩

end Node

end TypedSyntax
