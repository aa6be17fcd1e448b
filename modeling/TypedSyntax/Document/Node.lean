import TypedSyntax.Document.Basic
import TypedSyntax.Node.Basic

/-!
# Stored nodes

The stored form of a C node is a record with the name of its kind under `kind` and a record of its
attributes under `attrs`. A value is the text `None`, or a record with one entry that is named for
what it holds: `Text`, `Node` or `List`.

These are three general rules for stored forms, which are taken over here as they are documented
for such forms and not derived from anything:

* a value with alternatives is tagged from outside, by a record whose one entry has the name of the
  alternative; an alternative that holds nothing is its name alone, or a record with `null`;
* a map is a record, with its entries in the order of their keys;
* a structure with fixed fields is a record, in which fields may come in any order, other names do
  not matter, and a field with a default may be left out; or it is a list of the fields in declared
  order, which may stop before such a field.

Saving uses one spelling of each, with records, and loading takes all of them. So `attrs` may be
left out, and a node may be a list of its kind and its attributes. A list attribute may also be
given as `None`, but this is a matter of `Node.ofAttrs`. What is loaded first is reported first:
attributes before the kind of a record, in the order of their names, and everything inside a node
before the node.

* `Node.save`, `Node.load`: the stored form, and the node that it describes.
-/

namespace TypedSyntax

/-- Why a document is not a stored node. -/
inductive LoadError where
  /-- It does not have the layout of a stored node. -/
  | layout
  /-- It has the layout, but a node cannot be made from it. -/
  | node (error : NodeError)
  deriving DecidableEq

/-- What has been read of a stored node. -/
structure StoredNode where
  kind : Option String := none
  attrs : List (String × Attr Node) := []

namespace StoredNode

/-- The node that has been read. -/
def build (stored : StoredNode) : Except LoadError Node :=
  match stored.kind with
  | none => .error .layout
  | some name =>
    match Kind.ofName? name with
    | none => .error (.node (.unknownKind name))
    | some kind => (Node.ofAttrs kind stored.attrs).mapError .node

end StoredNode

namespace Node

mutual

/-- The node that a document describes. -/
def load : Document → Except LoadError Node
  | .record entries => do
    let stored ← loadRecord {} entries
    stored.build
  | .list [.text kind] => StoredNode.build ⟨some kind, []⟩
  | .list (.text kind :: attrs :: rest) => do
    let attrs ← loadAttrs attrs
    if rest.isEmpty then StoredNode.build ⟨some kind, attrs⟩ else .error .layout
  | _ => .error .layout

/-- Read the entries of a stored node one after the other. -/
def loadRecord (stored : StoredNode) : List (String × Document) → Except LoadError StoredNode
  | [] => .ok stored
  | (name, d) :: rest => do
    if name = "attrs" then
      let attrs ← loadAttrs d
      loadRecord { stored with attrs } rest
    else if name = "kind" then
      match d.text? with
      | none => .error .layout
      | some kind => loadRecord { stored with kind := some kind } rest
    else loadRecord stored rest

/-- The attributes that a record describes. -/
def loadAttrs : Document → Except LoadError (List (String × Attr Node))
  | .record entries => loadEntries entries
  | _ => .error .layout

/-- The attributes that the entries of a record describe. -/
def loadEntries : List (String × Document) → Except LoadError (List (String × Attr Node))
  | [] => .ok []
  | (name, d) :: rest => do
    let value ← loadAttr d
    let values ← loadEntries rest
    .ok ((name, value) :: values)

/-- The value that a document describes. -/
def loadAttr : Document → Except LoadError (Attr Node)
  | .text "None" => .ok .none
  | .record [("None", .null)] => .ok .none
  | .record [("Text", .text text)] => .ok (.text text)
  | .record [("Node", d)] => do
    let node ← load d
    .ok (.node node)
  | .record [("List", .list items)] => do
    let items ← loadItems items
    .ok (.list items)
  | _ => .error .layout

/-- The values that the items of a list describe. -/
def loadItems : List Document → Except LoadError (List (Attr Node))
  | [] => .ok []
  | d :: rest => do
    let value ← loadAttr d
    let values ← loadItems rest
    .ok (value :: values)

end

mutual

/-- The stored form of a node. -/
def save : Node → Document
  | ⟨kind, attrs⟩ =>
    .record [("attrs", .ofPairs (kind.attrNames.zip (saveAttrs attrs))), ("kind", .text kind.name)]

/-- The stored forms of values. -/
def saveAttrs : List (Attr Node) → List Document
  | [] => []
  | a :: as => saveAttr a :: saveAttrs as

/-- The stored form of a value. -/
def saveAttr : Attr Node → Document
  | .none => .text "None"
  | .text text => .record [("Text", .text text)]
  | .node node => .record [("Node", node.save)]
  | .list items => .record [("List", .list (saveAttrs items))]

end

end Node

end TypedSyntax
