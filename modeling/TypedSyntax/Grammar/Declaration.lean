import TypedSyntax.Grammar.Cardinality

/-!
# Declarations

What a grammar declares. A *sum type* is a list of *constructors*, and a constructor is a list of
*fields*, each with a name, the name of its type and a cardinality. A *primitive type* is only a
name: its values are raw texts. A constructor together with its sum type is a *production*.

* `Declarations`: the primitive types and the sum types, in the order they were declared.
* `Declarations.productions`: all constructors, in declared order, with their types.
-/

namespace TypedSyntax

/-- A field of a constructor. -/
structure Field where
  name : String
  /-- A primitive type or a sum type. -/
  typeName : String
  cardinality : Cardinality
  deriving DecidableEq

/-- A named alternative of a sum type. -/
structure Constructor where
  name : String
  fields : List Field
  deriving DecidableEq

/-- A type given by its alternatives. -/
structure SumType where
  name : String
  constructors : List Constructor
  deriving DecidableEq

/-- A constructor and the sum type it belongs to. -/
structure Production where
  typeName : String
  constructor : Constructor
  deriving DecidableEq

/-- The field of a given name. -/
def Constructor.field? (c : Constructor) (name : String) : Option Field :=
  c.fields.find? (·.name == name)

/-- The productions of one sum type. -/
def SumType.productions (s : SumType) : List Production :=
  s.constructors.map (Production.mk s.name)

namespace Production

/-- The name of the constructor. -/
def name (p : Production) : String :=
  p.constructor.name

/-- The fields of the constructor. -/
def fields (p : Production) : List Field :=
  p.constructor.fields

end Production

/-- What a grammar declares, in declared order. -/
structure Declarations where
  primitives : List String := []
  sums : List SumType := []
  deriving DecidableEq

namespace Declarations

/-- The names of all types, primitive types first. -/
def typeNames (d : Declarations) : List String :=
  d.primitives ++ d.sums.map SumType.name

/-- All constructors. -/
def constructors (d : Declarations) : List Constructor :=
  d.sums.flatMap SumType.constructors

/-- All productions. -/
def productions (d : Declarations) : List Production :=
  d.sums.flatMap SumType.productions

end Declarations

end TypedSyntax
