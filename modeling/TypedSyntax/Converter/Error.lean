import TypedSyntax.Grammar.TextError
import TypedSyntax.Node.Error

/-!
# Conversion errors

Why a node cannot be encoded as a tree, why a tree cannot be decoded as a node, and why a grammar
does not allow either. An error that only says that the input is not supported is told apart from
one that says that a tree is malformed or that two tables disagree
(`ConvertError.isContractViolation`).
-/

namespace TypedSyntax

/-- What a field takes. -/
inductive ValueExpected where
  | node
  | text
  | terminal
  | list
  | single
  | subtree
  | token
  | leafField
  | leaf
  deriving DecidableEq

namespace ValueExpected

/-- The wording of an expectation. -/
def describe : ValueExpected → String
  | node => "a node"
  | text => "text"
  | terminal => "a terminal"
  | list => "a list"
  | single => "a single value"
  | subtree => "a subtree"
  | token => "a token"
  | leafField => "a single leaf field"
  | leaf => "a token or subword leaf"

end ValueExpected

/-- What a field is given instead. -/
inductive ValueFound where
  | nothing
  | text (text : String)
  | node (kind : Kind)
  | list (length : Nat)
  | tree (constructor : String)
  | token (text : String)
  | fields (count : Nat)
  | constructor (name : String)
  deriving DecidableEq

namespace ValueFound

/-- The wording of a misplaced value. -/
def describe : ValueFound → String
  | nothing => "no value"
  | text s => "text " ++ quoted s
  | node kind => s!"a {kind.name} node"
  | list length => s!"a list of {length}"
  | tree name => s!"tree {name}"
  | token s => "token " ++ quoted s
  | fields count => s!"{count} fields"
  | constructor name => s!"constructor {name}"

end ValueFound

/-- How a production and a kind of node disagree. -/
inductive RegistryProblem where
  /-- The kind lacks an attribute for a field. -/
  | noAttribute (field : String)
  /-- A terminal has fields. -/
  | terminalFields
  /-- The number of fields is not that of the attributes. -/
  | fieldCount (fields attrs : Nat)
  /-- A field stands in the place of another attribute. -/
  | fieldName (field attr : String)
  /-- A field holds a list and its attribute does not, or the reverse. -/
  | fieldCardinality (field : String) (cardinality : Cardinality)
  deriving DecidableEq

namespace RegistryProblem

/-- The wording of a disagreement. -/
def describe : RegistryProblem → String
  | noAttribute field => s!"no native attribute {field}"
  | terminalFields => "terminal constructors take no fields"
  | fieldCount fields attrs => s!"{fields} fields but {attrs} native attributes"
  | fieldName field attr => s!"field {field} where attribute {attr} is declared"
  | fieldCardinality field k => s!"field {field} is {k.name}"

end RegistryProblem

/-- Why a conversion fails. -/
inductive ConvertError where
  /-- A constructor has no production in the grammar, or is no kind of node. -/
  | unknownProduction (name : String)
  /-- A word is not in its group of terminals. -/
  | unknownTerminal (typeName token : String)
  /-- A constructor is not in its group of terminals. -/
  | unknownConstructor (typeName constructor : String)
  /-- A field that needs a value has none. -/
  | missingRequiredField (constructor field : String)
  /-- A field holds a number of values that its cardinality does not admit. -/
  | cardinality (constructor field : String) (cardinality : Cardinality) (found : Nat)
  /-- A field holds a value of the wrong shape. -/
  | unexpectedValue (constructor field : String) (expected : ValueExpected) (found : ValueFound)
  /-- A field has a type whose values cannot be converted. -/
  | unsupportedFieldType (constructor field typeName : String)
  /-- A production for leaves does not have exactly one primitive field of the right cardinality. -/
  | invalidTokenProduction (name : String)
  /-- A production and a kind of node disagree. -/
  | registryMismatch (constructor : String) (problem : RegistryProblem)
  | grammar (error : GrammarError)
  | grammarText (error : TextError)
  | node (error : NodeError)
  deriving DecidableEq

namespace ConvertError

/-- The wording of an error. -/
def message : ConvertError → String
  | unknownProduction name => s!"Unknown production: {name}"
  | unknownTerminal typeName token => s!"Unknown {typeName} terminal: " ++ quoted token
  | unknownConstructor typeName constructor => s!"Unknown {typeName} constructor: {constructor}"
  | missingRequiredField constructor field =>
    s!"{constructor}.{field} is required but has no value"
  | cardinality constructor field k found =>
    s!"{constructor}.{field} is {k.name} but holds {found} values"
  | unexpectedValue constructor field expected found =>
    s!"{constructor}.{field}: expected {expected.describe}, found {found.describe}"
  | unsupportedFieldType constructor field typeName =>
    s!"{constructor}.{field} has unsupported type {typeName}"
  | invalidTokenProduction name =>
    s!"Token production {name} must have exactly one primitive field"
  | registryMismatch constructor problem =>
    s!"Registry mismatch for {constructor}: {problem.describe}"
  | grammar error => error.message
  | grammarText error => error.message
  | node error => error.message

/-- Whether an error says more than that the input is not supported. -/
def isContractViolation : ConvertError → Bool
  | unknownProduction _ | unknownTerminal .. | unknownConstructor .. => false
  | _ => true

end ConvertError

end TypedSyntax
