import TypedSyntax.Converter.Basic
import TypedSyntax.Node.Basic
import TypedSyntax.Tree.Basic

/-!
# Decoding trees as nodes

A tree becomes a node of the kind named like its constructor. Trees may come from anywhere, so the
decoder relies on neither the number nor the types of the values: it looks at a value only to see
whether it can be read as the type of the field asks, and counts the values afterwards.

* `Converter.decode`: the node of a tree.
-/

namespace TypedSyntax

namespace Converter

/-- How an error describes a value. -/
def describeValue : Value Tree → ValueFound
  | .child t => .tree t.name
  | .token text => .token text

/-- The raw texts that a field of a leaf holds. -/
def leafTokens (constructor field : String) :
    List (Value Tree) → Except ConvertError (List String)
  | [] => .ok []
  | .token text :: vs => (leafTokens constructor field vs).map (text :: ·)
  | .child t :: _ => .error (.unexpectedValue constructor field .token (.tree t.name))

/-- The text of a leaf: what a token leaf holds, or what the pieces of a subword leaf spell. -/
def decodeLeaf (c : Converter) (kind : LeafKind) (t : Tree) : Except ConvertError String :=
  let leaf := c.leaf kind
  match t.slots with
  | [s] => do
    let tokens ← leafTokens t.name s.field.name s.values
    if t.name = leaf.token.name then
      match tokens with
      | [token] => .ok token
      | _ => .error (.cardinality t.name s.field.name .single tokens.length)
    else if t.name = leaf.subword.name then .ok (Subword.join c.settings.marker tokens)
    else .error (.unexpectedValue t.name s.field.name .leaf (.constructor t.name))
  | slots => .error (.unexpectedValue t.name "" .leafField (.fields slots.length))

/-- The value of an attribute from the values of a field, as the cardinality of the field has
it. -/
def reshape (constructor : String) (f : Field) (values : List (Attr Node)) :
    Except ConvertError (Attr Node) :=
  match f.cardinality, values with
  | .multiple, values => .ok (.list values)
  | .optional, [] => .ok .none
  | .single, [value] | .optional, [value] => .ok value
  | k, values => .error (.cardinality constructor f.name k values.length)

mutual

/-- The node of a tree. -/
def decode (c : Converter) : Tree → Except ConvertError Node
  | ⟨p, slots⟩ =>
    match Kind.ofName? p.name with
    | none => .error (.unknownProduction p.name)
    | some kind => do
      let attrs ← decodeSlots c p slots
      (Node.ofAttrs kind attrs).mapError .node

/-- The named attributes for the slots of a tree, one after the other. -/
def decodeSlots (c : Converter) (p : Production) :
    List (Slot Tree) → Except ConvertError (List (String × Attr Node))
  | [] => .ok []
  | s :: ss => do
    let attr ← decodeSlot c p s
    let attrs ← decodeSlots c p ss
    .ok (attr :: attrs)

/-- The named attribute for a slot. -/
def decodeSlot (c : Converter) (p : Production) :
    Slot Tree → Except ConvertError (String × Attr Node)
  | ⟨f, values⟩ => do
    let kind ← c.classify p f
    let values ← decodeValues c p f kind values
    let attr ← reshape p.name f values
    .ok (f.name, attr)

/-- What the values of a field stand for, one after the other. -/
def decodeValues (c : Converter) (p : Production) (f : Field) (kind : FieldKind) :
    List (Value Tree) → Except ConvertError (List (Attr Node))
  | [] => .ok []
  | v :: vs => do
    let attr ← decodeValue c p f kind v
    let attrs ← decodeValues c p f kind vs
    .ok (attr :: attrs)

/-- What a value of a field stands for. -/
def decodeValue (c : Converter) (p : Production) (f : Field) (kind : FieldKind) :
    Value Tree → Except ConvertError (Attr Node)
  | .token text => .error (.unexpectedValue p.name f.name .subtree (.token text))
  | .child t =>
    match kind with
    | .composite => (decode c t).map .node
    | .leaf leaf => (c.decodeLeaf leaf t).map .text
    | .terminal => (decodeTerminal f.typeName t.name).map .text

end

end Converter

end TypedSyntax
