import TypedSyntax.Node.Kind

/-!
# Node errors

Why a C node cannot be made or changed.
-/

namespace TypedSyntax

/-- Why a C node cannot be made or changed. -/
inductive NodeError where
  /-- No kind has this name. -/
  | unknownKind (name : String)
  /-- The kind does not declare the attribute. -/
  | unknownAttribute (kind : Kind) (name : String)
  /-- A declared attribute is not given. -/
  | missingAttribute (kind : Kind) (name : String)
  /-- An attribute is given twice. -/
  | duplicateAttribute (kind : Kind) (name : String)
  /-- A single attribute is given a list, or a list attribute something else. -/
  | attrShape (kind : Kind) (spec : AttrSpec)
  deriving DecidableEq

namespace NodeError

/-- The wording of an error. -/
def message : NodeError → String
  | unknownKind name => s!"unknown C node kind: {name}"
  | unknownAttribute kind name => s!"{kind.name} has no attribute '{name}'"
  | missingAttribute kind name => s!"{kind.name} is missing attribute '{name}'"
  | duplicateAttribute kind name => s!"{kind.name} attribute '{name}' given more than once"
  | attrShape kind spec =>
    let expected := if spec.isList then "a list" else "a single value"
    s!"{kind.name} attribute '{spec.name}' expects {expected}"

end NodeError

end TypedSyntax
