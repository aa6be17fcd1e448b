import TypedSyntax.Converter.Basic

/-!
# Agreement of a grammar with the kinds of node

A grammar can serve for conversion if its productions agree with the vocabulary of nodes: a
production of composite type is named like a kind and has fields with the names of the attributes,
in the same order, of multiple cardinality exactly where the attribute is a list; a production of a
terminal type has no fields and stands for a word. The leaf types are not looked at here.

* `Grammar.verify`: the first production, in declared order, that does not agree.
-/

namespace TypedSyntax

/-- Fields agree with attributes, one by one. -/
def verifyFields (constructor : String) : List (Field × AttrSpec) → Except ConvertError Unit
  | [] => .ok ()
  | (f, spec) :: rest =>
    if f.name ≠ spec.name then .error (.registryMismatch constructor (.fieldName f.name spec.name))
    else if (f.cardinality == .multiple) ≠ spec.isList then
      .error (.registryMismatch constructor (.fieldCardinality f.name f.cardinality))
    else verifyFields constructor rest

/-- A production agrees with the vocabulary of nodes. -/
def Production.verify (p : Production) : Except ConvertError Unit :=
  if p.typeName = LeafKind.ident.typeName ∨ p.typeName = LeafKind.str.typeName then .ok ()
  else if Terminal.isType p.typeName then
    if p.fields.isEmpty then (decodeTerminal p.typeName p.name).map fun _ => ()
    else .error (.registryMismatch p.name .terminalFields)
  else
    match Kind.ofName? p.name with
    | none => .error (.unknownProduction p.name)
    | some kind =>
      if p.fields.length = kind.attrs.length then verifyFields p.name (p.fields.zip kind.attrs)
      else .error (.registryMismatch p.name (.fieldCount p.fields.length kind.attrs.length))

/-- A grammar agrees with the vocabulary of nodes. -/
def Grammar.verify (g : Grammar) : Except ConvertError Unit :=
  g.productions.forM Production.verify

end TypedSyntax
