import TypedSyntax.Grammar.Basic
import TypedSyntax.Grammar.Token

/-!
# Reading declarations

Grammar text follows the rules

* grammar: any number of items;
* item: `primitive` and names separated by commas, or a name, `=` and constructors separated by
  bars;
* constructor: a name, and optionally a pair of parentheses with fields separated by commas;
* field: a type name, optionally `*` or `?`, and a field name.

No token ends an item, so an item goes on as long as the next token allows. The reader takes one
token after the other. Its `Stage` says what has been read of the item at hand; from it follow the
tokens that may come next (`Reader.step?`) and what is named in an error if none of them comes
(`Stage.expected`). An item that could end here counts as ended as soon as another one starts.

* `Declarations.read`: the declarations that a list of tokens spells, or the first token that no
  text could have after those before it.
* `Grammar.ofText`: the grammar that a text spells.
-/

namespace TypedSyntax

/-- A sum type with one more constructor. -/
def SumType.add (s : SumType) (c : Constructor) : SumType :=
  { s with constructors := s.constructors ++ [c] }

/-- A constructor with one more field. -/
def Constructor.add (c : Constructor) (f : Field) : Constructor :=
  { c with fields := c.fields ++ [f] }

namespace Declarations

/-- The declarations with one more primitive type. -/
def addPrimitive (d : Declarations) (name : String) : Declarations :=
  { d with primitives := d.primitives ++ [name] }

/-- The declarations with one more sum type. -/
def addSum (d : Declarations) (s : SumType) : Declarations :=
  { d with sums := d.sums ++ [s] }

end Declarations

/-- What has been read of the item at hand. -/
inductive Stage where
  /-- Nothing. -/
  | item
  /-- The word `primitive`, or a comma after a primitive type: a name has to follow. -/
  | primitive
  /-- A primitive type: the item may end here. -/
  | primitiveDone
  /-- The name of a sum type. -/
  | sumName (name : String)
  /-- A sum type up to `=` or a bar: a constructor has to follow. -/
  | constructor (sum : SumType)
  /-- A sum type and the name of its next constructor: the item may end here. -/
  | constructorName (sum : SumType) (name : String)
  /-- The same and an opening parenthesis: a field or the closing parenthesis has to follow. -/
  | fields (sum : SumType) (name : String)
  /-- A sum type and a constructor up to a comma: a field has to follow. -/
  | nextField (sum : SumType) (constructor : Constructor)
  /-- The same and the type of a field. -/
  | fieldType (sum : SumType) (constructor : Constructor) (typeName : String)
  /-- The same and the cardinality of the field. -/
  | fieldName (sum : SumType) (constructor : Constructor) (typeName : String) (k : Cardinality)
  /-- A sum type and a constructor up to the end of a field. -/
  | fieldDone (sum : SumType) (constructor : Constructor)
  /-- A sum type up to a closing parenthesis: the item may end here. -/
  | constructorDone (sum : SumType)
  deriving DecidableEq

namespace Stage

/-- What is named in an error when the next token does not fit. -/
def expected : Stage → Expected
  | item | primitiveDone | constructorName .. | constructorDone _ => .typeName
  | primitive => .primitiveName
  | sumName _ => .equals
  | constructor _ => .constructorName
  | fields .. | nextField .. => .fieldType
  | fieldType .. | fieldName .. => .fieldName
  | fieldDone .. => .closeParen

end Stage

/-- The declarations that are complete, and what has been read of the item at hand. -/
structure Reader where
  declarations : Declarations := {}
  stage : Stage := .item
  deriving DecidableEq

namespace Reader

/-- The declarations if the text ends here. -/
def close? (r : Reader) : Option Declarations :=
  match r.stage with
  | .item | .primitiveDone => some r.declarations
  | .constructorName sum name => some (r.declarations.addSum (sum.add ⟨name, []⟩))
  | .constructorDone sum => some (r.declarations.addSum sum)
  | _ => none

/-- The first token of an item. -/
def startItem? (d : Declarations) (t : Token) : Option Reader :=
  match t.kind with
  | .primitive => some ⟨d, .primitive⟩
  | .identifier => some ⟨d, .sumName t.text⟩
  | _ => none

/-- A token that goes on with the item at hand. -/
def continueItem? (r : Reader) (t : Token) : Option Reader :=
  match r.stage, t.kind with
  | .primitive, .identifier => some ⟨r.declarations.addPrimitive t.text, .primitiveDone⟩
  | .primitiveDone, .comma => some { r with stage := .primitive }
  | .sumName name, .equals => some { r with stage := .constructor ⟨name, []⟩ }
  | .constructor sum, .identifier => some { r with stage := .constructorName sum t.text }
  | .constructorName sum name, .leftParen => some { r with stage := .fields sum name }
  | .constructorName sum name, .pipe => some { r with stage := .constructor (sum.add ⟨name, []⟩) }
  | .fields sum name, .rightParen => some { r with stage := .constructorDone (sum.add ⟨name, []⟩) }
  | .fields sum name, .identifier => some { r with stage := .fieldType sum ⟨name, []⟩ t.text }
  | .nextField sum c, .identifier => some { r with stage := .fieldType sum c t.text }
  | .fieldType sum c typeName, .star =>
    some { r with stage := .fieldName sum c typeName .multiple }
  | .fieldType sum c typeName, .question =>
    some { r with stage := .fieldName sum c typeName .optional }
  | .fieldType sum c typeName, .identifier =>
    some { r with stage := .fieldDone sum (c.add ⟨t.text, typeName, .single⟩) }
  | .fieldName sum c typeName k, .identifier =>
    some { r with stage := .fieldDone sum (c.add ⟨t.text, typeName, k⟩) }
  | .fieldDone sum c, .comma => some { r with stage := .nextField sum c }
  | .fieldDone sum c, .rightParen => some { r with stage := .constructorDone (sum.add c) }
  | .constructorDone sum, .pipe => some { r with stage := .constructor sum }
  | _, _ => none

/-- The reader after one more token, if the token may stand here: it goes on with the item at
hand, or it starts a new one where that item may end. -/
def step? (r : Reader) (t : Token) : Option Reader :=
  -- Going on comes first: a name after a field type is a field name, never a new item. Where both
  -- are possible the tokens differ, since an item starts with a name or with `primitive`.
  match r.continueItem? t with
  | some next => some next
  | none => r.close?.bind (startItem? · t)

/-- Read tokens up to the end token. -/
def run (r : Reader) : List Token → Except TextError Declarations
  | [] => finish
  | t :: ts =>
    if t.kind = .eof then finish
    else
      match r.step? t with
      | some next => next.run ts
      | none =>
        .error (.unexpectedToken t.text r.stage.expected t.position.line t.position.column)
where
  /-- The text ends here. -/
  finish : Except TextError Declarations :=
    match r.close? with
    | some d => .ok d
    | none => .error (.unexpectedEnd r.stage.expected)

end Reader

/-- The declarations that a list of tokens spells. -/
def Declarations.read (ts : List Token) : Except TextError Declarations :=
  ({} : Reader).run ts

/-- The grammar that a text spells. -/
def Grammar.ofText (text : String) : Except TextError Grammar := do
  let tokens ← Token.scan text
  let declarations ← Declarations.read tokens
  (Grammar.ofDeclarations declarations).mapError .grammar

end TypedSyntax
