import TypedSyntax.Converter.Basic
import TypedSyntax.Node.Basic
import TypedSyntax.Tree.Basic

/-!
# Encoding nodes as trees

A node becomes a tree of the production named like its kind. The fields of the production are
filled one after the other from the attributes of the same names, and the first field that cannot
be filled gives the error.

* `Converter.encode`: the tree of a node.
* `Converter.encode_eq`: the tree of a node from those of its children.
-/

namespace TypedSyntax

/-- A child that has been encoded. -/
structure Encoded where
  kind : Kind
  result : Except ConvertError Tree

namespace Converter

/-- How an error describes a value. -/
def describeAttr : Attr Encoded → ValueFound
  | .none => .nothing
  | .text text => .text text
  | .node child => .node child.kind
  | .list items => .list items.length

/-- The values of an attribute for a field: none, one, or the items of a list, as the cardinality
of the field has it. -/
def elements (p : Production) (f : Field) (a : Attr Encoded) :
    Except ConvertError (List (Attr Encoded)) :=
  match f.cardinality, a with
  | .single, .none => .error (.missingRequiredField p.name f.name)
  | _, .none => .ok []
  | .multiple, .list items => .ok items
  | .multiple, a => .error (.unexpectedValue p.name f.name .list (describeAttr a))
  | _, .list items => .error (.unexpectedValue p.name f.name .single (.list items.length))
  | _, a => .ok [a]

/-- The leaf for a text. -/
def encodeLeaf (c : Converter) (kind : LeafKind) (text : String) : Except ConvertError Tree :=
  let leaf := c.leaf kind
  let tree :=
    match c.model with
    | none => Tree.ofSlots leaf.token [⟨leaf.tokenField, [.token text]⟩]
    | some model => Tree.ofSlots leaf.subword [⟨leaf.piecesField, (model text).map .token⟩]
  tree.mapError .grammar

/-- The tree for one value of a field. -/
def encodeValue (c : Converter) (p : Production) (f : Field) (kind : FieldKind)
    (a : Attr Encoded) : Except ConvertError Tree :=
  match kind, a with
  | .composite, .node child => child.result
  | .composite, a => .error (.unexpectedValue p.name f.name .node (describeAttr a))
  | .leaf leaf, .text text => c.encodeLeaf leaf text
  | .leaf _, a => .error (.unexpectedValue p.name f.name .text (describeAttr a))
  | .terminal, .text text => do
    let constructor ← encodeTerminal f.typeName text
    let terminal ← (c.grammar.production constructor).mapError .grammar
    .ok (Tree.ofProduction terminal)
  | .terminal, a => .error (.unexpectedValue p.name f.name .terminal (describeAttr a))

/-- The trees for the values of a field, one after the other. -/
def encodeValues (c : Converter) (p : Production) (f : Field) (kind : FieldKind) :
    List (Attr Encoded) → Except ConvertError (List (Value Tree))
  | [] => .ok []
  | a :: as => do
    let tree ← c.encodeValue p f kind a
    let trees ← encodeValues c p f kind as
    .ok (.child tree :: trees)

/-- The slot of a field, from the attribute of the same name. -/
def encodeField (c : Converter) (kind : Kind) (attrs : List (Attr Encoded)) (p : Production)
    (f : Field) : Except ConvertError (Slot Tree) :=
  -- The order of the fields is that of the grammar, which need not be that of the attributes.
  match (kind.attrIndex? f.name).bind (attrs[·]?) with
  | none => .error (.registryMismatch kind.name (.noAttribute f.name))
  | some a => do
    let fieldKind ← c.classify p f
    let values ← elements p f a
    let trees ← c.encodeValues p f fieldKind values
    .ok ⟨f, trees⟩

/-- The slots of fields, one after the other. -/
def encodeFields (c : Converter) (kind : Kind) (attrs : List (Attr Encoded)) (p : Production) :
    List Field → Except ConvertError (List (Slot Tree))
  | [] => .ok []
  | f :: fs => do
    let slot ← c.encodeField kind attrs p f
    let slots ← encodeFields c kind attrs p fs
    .ok (slot :: slots)

/-- The tree of a node from its kind and its attributes, in which the children have been
encoded. -/
def assemble (c : Converter) (kind : Kind) (attrs : List (Attr Encoded)) :
    Except ConvertError Tree :=
  match c.grammar.production? kind.name with
  | none => .error (.unknownProduction kind.name)
  | some p => do
    let slots ← c.encodeFields kind attrs p p.fields
    (Tree.ofSlots p slots).mapError .grammar

mutual

/-- The tree of a node. -/
def encode (c : Converter) : Node → Except ConvertError Tree
  | ⟨kind, attrs⟩ => c.assemble kind (encodeAttrs c attrs)

/-- A list of values with the children encoded. -/
def encodeAttrs (c : Converter) : List (Attr Node) → List (Attr Encoded)
  | [] => []
  | a :: as => encodeAttr c a :: encodeAttrs c as

/-- A value with the children encoded. -/
def encodeAttr (c : Converter) : Attr Node → Attr Encoded
  | .none => .none
  | .text text => .text text
  | .node ⟨kind, attrs⟩ => .node ⟨kind, encode c ⟨kind, attrs⟩⟩
  | .list items => .list (encodeAttrs c items)

end

theorem encodeAttrs_eq_map (c : Converter) (as : List (Attr Node)) :
    encodeAttrs c as = as.map (encodeAttr c) := by
  induction as with
  | nil => rw [encodeAttrs, List.map_nil]
  | cons a as ih => rw [encodeAttrs, List.map_cons, ih]

/-- The tree of a node from those of its children. -/
theorem encode_eq (c : Converter) (n : Node) :
    c.encode n = c.assemble n.kind (n.attrs.map (encodeAttr c)) := by
  obtain ⟨kind, attrs⟩ := n
  rw [encode, encodeAttrs_eq_map]

end Converter

end TypedSyntax
