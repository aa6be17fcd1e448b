import TypedSyntax.Grammar.Declaration
import TypedSyntax.Text.Quoted

/-!
# Grammar errors

Why declarations are no grammar, why a grammar has no answer to a question, and why a tree does
not fit a grammar. Each error names its cause; `GrammarError.message` is the one place where the
wording is chosen.
-/

namespace TypedSyntax

/-- What stands where a field wants a value of another shape. -/
inductive StoredFound where
  /-- A tree of another type. -/
  | tree (typeName : String)
  /-- A raw text in a field that holds trees. -/
  | token (text : String)
  /-- A reference to a table entry in a field that holds raw texts. -/
  | entry (index : Nat)
  deriving DecidableEq

namespace StoredFound

/-- The wording of a misplaced value. -/
def describe : StoredFound → String
  | tree typeName => s!"a {typeName} tree"
  | token text => "token " ++ quoted text
  | entry index => s!"node {index}"

end StoredFound

/-- Why a table of nodes is not the layout of one tree. -/
inductive LayoutProblem where
  /-- The table has no entry. -/
  | empty
  /-- An entry refers to itself, to an entry before it, or past the end of the table. -/
  | reference (parent child : Nat)
  /-- Two values refer to one entry. -/
  | referencedTwice (index : Nat)
  /-- No value refers to an entry other than the first. -/
  | neverReferenced (index : Nat)
  deriving DecidableEq

namespace LayoutProblem

/-- The wording of a layout problem. -/
def describe : LayoutProblem → String
  | empty => "empty node table"
  | reference parent child => s!"node {parent} refers to node {child}"
  | referencedTwice index => s!"node {index} is referenced twice"
  | neverReferenced index => s!"node {index} is never referenced"

end LayoutProblem

/-- What can go wrong with a grammar or with a tree over it. -/
inductive GrammarError where
  /-- No production has this constructor name. -/
  | unknownConstructor (name : String)
  /-- No sum type has this name. -/
  | unknownType (name : String)
  /-- Two productions share a constructor name. -/
  | duplicateConstructor (name : String)
  /-- Two types share a name. -/
  | duplicateType (name : String)
  /-- Two fields of a constructor share a name. -/
  | duplicateField (constructor field : String)
  /-- The type of a field is not declared. -/
  | undeclaredType (constructor field typeName : String)
  /-- There is no sum type. -/
  | emptyGrammar
  /-- A field holds a number of values that its cardinality does not admit. -/
  | cardinality (field : String) (cardinality : Cardinality) (found : Nat)
  /-- The fields of a node are not those of its production; `none` is the end of a field list. -/
  | fieldMismatch (constructor : String) (expected found : Option String)
  /-- A field holds a value of the wrong shape. -/
  | typeMismatch (field typeName : String) (found : StoredFound)
  /-- A table of nodes is not the layout of one tree. -/
  | storedLayout (problem : LayoutProblem)
  deriving DecidableEq

namespace GrammarError

/-- The wording of an error. -/
def message : GrammarError → String
  | unknownConstructor name => s!"unknown constructor: {name}"
  | unknownType name => s!"unknown type: {name}"
  | duplicateConstructor name => s!"duplicate constructor: {name}"
  | duplicateType name => s!"duplicate type: {name}"
  | duplicateField constructor field => s!"duplicate field {field} in constructor {constructor}"
  | undeclaredType constructor field typeName =>
    s!"field {constructor}.{field} has undeclared type {typeName}"
  | emptyGrammar => "grammar declares no sum type"
  | cardinality field k found => s!"field {field} is {k.name} but holds {found} value(s)"
  | fieldMismatch constructor expected found =>
    let expected := expected.getD "<end>"
    let found := found.getD "<end>"
    s!"constructor {constructor} expects field {expected}, found {found}"
  | typeMismatch field typeName found =>
    s!"field {field} of type {typeName} cannot hold {found.describe}"
  | storedLayout problem => s!"malformed stored tree: {problem.describe}"

end GrammarError

end TypedSyntax
