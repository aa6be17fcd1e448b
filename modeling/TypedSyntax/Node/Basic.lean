import TypedSyntax.Node.Error
import TypedSyntax.Worklist

/-!
# C nodes

A `Node` has a kind and one value (`Attr`) for each attribute of the kind, in declared order. A
value is missing, a text, a node, or a list of values, which may be nested. A list attribute holds
a list and a single attribute does not; the operations that take values see to that
(`Attr.conform`), and store a missing value of a list attribute as the empty list.

* `Node.ofKind`, `Node.ofAttrs`, `Node.set`: make a node, and change one attribute.
* `Node.children`: the nodes in the attributes, lists flattened; `Node.inductionOn` is induction
  along them.
* `Node.walk`: a node and all nodes below it, each before its children.
-/

namespace TypedSyntax

/-- The value of an attribute, over nodes of type `α`. -/
inductive Attr (α : Type) where
  /-- No value. -/
  | none
  /-- A name, an operator, a literal or a word. -/
  | text (text : String)
  | node (node : α)
  | list (items : List (Attr α))

/-- A C node with everything below it. -/
structure Node where
  kind : Kind
  attrs : List (Attr Node)

namespace Attr

variable {α : Type}

/-- Whether there is no value. -/
def isNone : Attr α → Bool
  | .none => true
  | _ => false

/-- The text, if the value is one. -/
def text? : Attr α → Option String
  | .text s => some s
  | _ => Option.none

/-- The node, if the value is one. -/
def node? : Attr α → Option α
  | .node n => some n
  | _ => Option.none

/-- The items, if the value is a list. -/
def list? : Attr α → Option (List (Attr α))
  | .list items => some items
  | _ => Option.none

/-- The value of an attribute that nothing has been given for. -/
def empty (spec : AttrSpec) : Attr α :=
  if spec.isList then .list [] else .none

/-- Whether the value has the shape of the attribute. -/
def fits (spec : AttrSpec) : Attr α → Bool
  | .none => true
  | .list _ => spec.isList
  | .text _ | .node _ => !spec.isList

/-- The value as the attribute stores it. -/
def conform (kind : Kind) (spec : AttrSpec) (a : Attr α) : Except NodeError (Attr α) :=
  if spec.isList ∧ a.isNone then .ok (.list [])
  else if a.fits spec then .ok a
  else .error (.attrShape kind spec)

mutual

/-- The nodes in a value, left to right, lists flattened. -/
def nodes : Attr α → List α
  | .none => []
  | .text _ => []
  | .node n => [n]
  | .list items => nodesOfList items

/-- The nodes in a list of values. -/
def nodesOfList : List (Attr α) → List α
  | [] => []
  | a :: as => a.nodes ++ nodesOfList as

end

end Attr

namespace Node

/-- The node of a kind without any values. -/
def ofKind (kind : Kind) : Node :=
  ⟨kind, kind.attrs.map Attr.empty⟩

/-- Take named values one after the other: each name must be declared and new, and each value must
have the shape of its attribute. The values taken before are in `given`. -/
def collect (kind : Kind) (given : List (String × Attr Node)) :
    List (String × Attr Node) → Except NodeError (List (String × Attr Node))
  | [] => .ok given
  | (name, value) :: rest =>
    match kind.attr? name with
    | none => .error (.unknownAttribute kind name)
    | some spec =>
      -- A repeated name is noticed before the shape of its value.
      if (given.lookup name).isSome then .error (.duplicateAttribute kind name)
      else
        match value.conform kind spec with
        | .error e => .error e
        | .ok stored => collect kind ((name, stored) :: given) rest

/-- The values for declared attributes, in declared order. -/
def arrange (kind : Kind) (given : List (String × Attr Node)) :
    List AttrSpec → Except NodeError (List (Attr Node))
  | [] => .ok []
  | spec :: specs =>
    match given.lookup spec.name with
    | none => .error (.missingAttribute kind spec.name)
    | some value => (arrange kind given specs).map (value :: ·)

/-- The node of a kind with named values in any order, one for each declared attribute. -/
def ofAttrs (kind : Kind) (attrs : List (String × Attr Node)) : Except NodeError Node := do
  let given ← collect kind [] attrs
  let values ← arrange kind given kind.attrs
  .ok ⟨kind, values⟩

/-- The value of an attribute. -/
def get? (n : Node) (name : String) : Option (Attr Node) :=
  (n.kind.attrIndex? name).bind (n.attrs[·]?)

/-- The names and values of the attributes, in declared order. -/
def namedAttrs (n : Node) : List (String × Attr Node) :=
  n.kind.attrNames.zip n.attrs

/-- The node with one value replaced. -/
def set (n : Node) (name : String) (value : Attr Node) : Except NodeError Node :=
  match n.kind.attrIndex? name, n.kind.attr? name with
  | some i, some spec =>
    (value.conform n.kind spec).map fun stored => { n with attrs := n.attrs.set i stored }
  | _, _ => .error (.unknownAttribute n.kind name)

/-- The nodes directly below a node, left to right, lists flattened. -/
def children (n : Node) : List Node :=
  Attr.nodesOfList n.attrs

/-! ### Children are smaller -/

mutual

theorem totalSize_nodes : ∀ a : Attr Node, totalSize a.nodes < sizeOf a
  | .none => by simp [Attr.nodes]
  | .text _ => by
    simp only [Attr.nodes, totalSize_nil, Attr.text.sizeOf_spec]
    omega
  | .node _ => by
    simp only [Attr.nodes, totalSize_cons, totalSize_nil, Attr.node.sizeOf_spec]
    omega
  | .list items => by
    have h := totalSize_nodesOfList items
    simp only [Attr.nodes, Attr.list.sizeOf_spec]
    omega

theorem totalSize_nodesOfList :
    ∀ as : List (Attr Node), totalSize (Attr.nodesOfList as) < sizeOf as
  | [] => by simp [Attr.nodesOfList]
  | a :: as => by
    have ha := totalSize_nodes a
    have has := totalSize_nodesOfList as
    simp only [Attr.nodesOfList, totalSize_append, List.cons.sizeOf_spec]
    omega

end

/-- The children together are smaller than the node. -/
theorem totalSize_children (n : Node) : totalSize n.children < sizeOf n := by
  obtain ⟨kind, attrs⟩ := n
  have h := totalSize_nodesOfList attrs
  simp only [children, Node.mk.sizeOf_spec]
  omega

theorem sizeOf_lt_of_mem_children {m n : Node} (h : m ∈ n.children) : sizeOf m < sizeOf n :=
  Nat.lt_of_le_of_lt (sizeOf_le_totalSize h) (totalSize_children n)

/-- Induction along the children. -/
theorem inductionOn {motive : Node → Prop} (n : Node)
    (step : ∀ n : Node, (∀ m ∈ n.children, motive m) → motive n) : motive n :=
  step n fun m _ => inductionOn m step
termination_by sizeOf n
decreasing_by exact sizeOf_lt_of_mem_children ‹_›

/-! ### Walks -/

/-- The nodes in a list and all nodes below them, each before its children, left to right. -/
def walkAll : List Node → List Node
  | [] => []
  | n :: pending => n :: walkAll (n.children ++ pending)
termination_by pending => totalSize pending
decreasing_by
  have h := totalSize_children n
  simp only [totalSize_append, totalSize_cons]
  omega

/-- A node and all nodes below it, each before its children, left to right. -/
def walk (n : Node) : List Node :=
  walkAll [n]

/-- The number of nodes in a node, itself included. -/
def size (n : Node) : Nat :=
  n.walk.length

/-! ### Equality -/

mutual

/-- Equality of nodes can be decided. -/
def decEq : (m n : Node) → Decidable (m = n)
  | ⟨k, as⟩, ⟨l, bs⟩ =>
    if hk : k = l then
      match decEqAttrs as bs with
      | isTrue h => isTrue (by rw [hk, h])
      | isFalse h => isFalse fun e => h (Node.mk.inj e).2
    else isFalse fun e => hk (Node.mk.inj e).1

/-- Equality of lists of values can be decided. -/
def decEqAttrs : (as bs : List (Attr Node)) → Decidable (as = bs)
  | [], [] => isTrue rfl
  | [], _ :: _ => isFalse nofun
  | _ :: _, [] => isFalse nofun
  | a :: as, b :: bs =>
    match decEqAttr a b with
    | isTrue h =>
      match decEqAttrs as bs with
      | isTrue hs => isTrue (by rw [h, hs])
      | isFalse hs => isFalse fun e => hs (List.cons.inj e).2
    | isFalse h => isFalse fun e => h (List.cons.inj e).1

/-- Equality of values can be decided. -/
def decEqAttr : (a b : Attr Node) → Decidable (a = b)
  | .none, .none => isTrue rfl
  | .text s, .text t =>
    if h : s = t then isTrue (by rw [h]) else isFalse fun e => h (Attr.text.inj e)
  | .node m, .node n =>
    match decEq m n with
    | isTrue h => isTrue (by rw [h])
    | isFalse h => isFalse fun e => h (Attr.node.inj e)
  | .list as, .list bs =>
    match decEqAttrs as bs with
    | isTrue h => isTrue (by rw [h])
    | isFalse h => isFalse fun e => h (Attr.list.inj e)
  | .none, .text _ | .none, .node _ | .none, .list _ => isFalse nofun
  | .text _, .none | .text _, .node _ | .text _, .list _ => isFalse nofun
  | .node _, .none | .node _, .text _ | .node _, .list _ => isFalse nofun
  | .list _, .none | .list _, .text _ | .list _, .node _ => isFalse nofun

end

instance : DecidableEq Node :=
  decEq

end Node

end TypedSyntax
