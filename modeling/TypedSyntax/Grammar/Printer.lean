import TypedSyntax.Grammar.Basic

/-!
# Printing grammars

The text of a grammar: one line that lists the primitive types, if there are any, and for every
sum type its name and `=`, followed by the first constructor on the same line and the others each
on a line of its own behind a bar. A constructor without fields is written without parentheses.
-/

namespace TypedSyntax

/-- The text of a field. -/
def Field.render (f : Field) : String :=
  f.typeName ++ f.cardinality.suffix ++ " " ++ f.name

/-- The text of a constructor. -/
def Constructor.render (c : Constructor) : String :=
  if c.fields.isEmpty then c.name
  else c.name ++ "(" ++ ", ".intercalate (c.fields.map Field.render) ++ ")"

/-- The text of a sum type, line end included. -/
def SumType.render (s : SumType) : String :=
  let alternatives :=
    match s.constructors with
    | [] => ""
    | cs => " " ++ "\n    | ".intercalate (cs.map Constructor.render)
  s.name ++ " =" ++ alternatives ++ "\n"

/-- The text of declarations. -/
def Declarations.render (d : Declarations) : String :=
  let primitives :=
    if d.primitives.isEmpty then ""
    else "primitive " ++ ", ".intercalate d.primitives ++ "\n"
  primitives ++ String.join (d.sums.map SumType.render)

/-- The text of a grammar. -/
def Grammar.render (g : Grammar) : String :=
  g.declarations.render

end TypedSyntax
