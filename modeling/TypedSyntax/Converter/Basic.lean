import TypedSyntax.Converter.Error
import TypedSyntax.Grammar.Basic
import TypedSyntax.Settings
import TypedSyntax.Terminal

/-!
# Converters

A `Converter` turns C nodes into trees over one grammar and back. What it does with the values of
a field depends on the type of the field (`FieldKind`): nodes become trees of composite type, words
of a terminal group become constructors without fields, and other texts become leaves. There are
two leaf types, for identifiers and for strings, and each has two productions: one that holds a
text as it is, and one that holds subword pieces. Leaves are written as pieces exactly if the
converter has a subword model; both forms can be read.

* `Converter.resolve`: the converter for a grammar, if the grammar has the four leaf productions.
* `Converter.fieldKind?`: what a converter does with the values of a type.
-/

namespace TypedSyntax

/-- The two types of leaf. -/
inductive LeafKind where
  | ident
  | str
  deriving DecidableEq

namespace LeafKind

/-- The name of a leaf type. -/
def typeName : LeafKind → String
  | ident => "IDENT"
  | str => "STR"

/-- The constructor that holds a text as it is. -/
def tokenConstructor : LeafKind → String
  | ident => "IdentToken"
  | str => "StrToken"

/-- The constructor that holds subword pieces. -/
def subwordConstructor : LeafKind → String
  | ident => "IdentSubword"
  | str => "StrSubword"

end LeafKind

/-- What a converter does with the values of a type. -/
inductive FieldKind where
  /-- Nodes. -/
  | composite
  /-- Identifiers or strings. -/
  | leaf (kind : LeafKind)
  /-- Words of a terminal group. -/
  | terminal
  deriving DecidableEq

/-- The productions of one leaf type, each with its only field. -/
structure LeafProductions where
  token : Production
  tokenField : Field
  subword : Production
  piecesField : Field

/-- The only field of a leaf production, which has a primitive type. -/
def leafField (g : Grammar) (p : Production) (k : Cardinality) : Except ConvertError Field :=
  match p.fields with
  | [f] =>
    if f.cardinality = k ∧ g.isPrimitive f.typeName then .ok f
    else .error (.invalidTokenProduction p.name)
  | _ => .error (.invalidTokenProduction p.name)

/-- The productions of a leaf type. -/
def LeafProductions.resolve (g : Grammar) (leaf : LeafKind) :
    Except ConvertError LeafProductions := do
  let token ← (g.production leaf.tokenConstructor).mapError .grammar
  let subword ← (g.production leaf.subwordConstructor).mapError .grammar
  let tokenField ← leafField g token .single
  let piecesField ← leafField g subword .multiple
  .ok { token, tokenField, subword, piecesField }

/-- A converter between C nodes and trees over a grammar. -/
structure Converter where
  grammar : Grammar
  /-- The model that cuts texts into pieces, if leaves are written as pieces. -/
  model : Option Subword.Model
  settings : Settings
  /-- The productions of both leaf types. -/
  leaf : LeafKind → LeafProductions
  resolve_leaf : ∀ kind, LeafProductions.resolve grammar kind = .ok (leaf kind)

namespace Converter

/-- The converter for a grammar, with the default settings. -/
def resolve (g : Grammar) (model : Option Subword.Model) : Except ConvertError Converter :=
  match hi : LeafProductions.resolve g .ident with
  | .error e => .error e
  | .ok ident =>
    match hs : LeafProductions.resolve g .str with
    | .error e => .error e
    | .ok str =>
      .ok
        { grammar := g
          model
          settings := {}
          leaf := fun
            | .ident => ident
            | .str => str
          resolve_leaf := fun
            | .ident => hi
            | .str => hs }

/-- The same converter with other settings. -/
def withSettings (c : Converter) (settings : Settings) : Converter :=
  { c with settings }

/-- Whether leaves are written as subword pieces. -/
def usesSubwords (c : Converter) : Bool :=
  c.model.isSome

/-- What is done with the values of a sum type; the values of any other type cannot be
converted. -/
def fieldKind? (c : Converter) (typeName : String) : Option FieldKind :=
  if !c.grammar.isSum typeName then none
  else if typeName = LeafKind.ident.typeName then some (.leaf .ident)
  else if typeName = LeafKind.str.typeName then some (.leaf .str)
  else if Terminal.isType typeName then some .terminal
  else some .composite

/-- What is done with the values of a field. -/
def classify (c : Converter) (p : Production) (f : Field) : Except ConvertError FieldKind :=
  match c.fieldKind? f.typeName with
  | some kind => .ok kind
  | none => .error (.unsupportedFieldType p.name f.name f.typeName)

/-- A line that shows what a converter was made with. The grammar is left open. -/
def describe (c : Converter) : String :=
  let settings := c.settings
  "AstConverter \x7b grammar: _, " ++ s!"subword_model: {c.usesSubwords}, " ++
    "config: ConverterConfig \x7b boundary_marker: " ++ quotedCharacter settings.marker ++
    s!", cache_capacity: {settings.capacity}, stack_red_zone: {settings.redZone}" ++
    s!", stack_size: {settings.stackSize} " ++ "\x7d, .. \x7d"

end Converter

/-- The constructor for a word of a terminal group. -/
def encodeTerminal (typeName token : String) : Except ConvertError String :=
  match Terminal.constructor? typeName token with
  | some constructor => .ok constructor
  | none => .error (.unknownTerminal typeName token)

/-- The word for a constructor of a terminal group. -/
def decodeTerminal (typeName constructor : String) : Except ConvertError String :=
  match Terminal.token? typeName constructor with
  | some token => .ok token
  | none => .error (.unknownConstructor typeName constructor)

end TypedSyntax
