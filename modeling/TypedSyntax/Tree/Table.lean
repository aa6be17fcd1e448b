import TypedSyntax.Tree.Basic

/-!
# Tables of nodes

The form in which a tree is stored, apart from any grammar: an array with one entry for each node,
in which a child is referred to by its index. An entry has the names of a constructor and of its
fields; nothing says which types these have.

Entry 0 is the root. When the children of a node are numbered they take the next free indices from
left to right, and the node whose children are numbered next is the last one that got an index. So
every entry comes after its parent, and the descendants of the last child come first.

* `Tree.toTable`: the table of a tree.
-/

namespace TypedSyntax

namespace Table

/-- The stored form of a slot. -/
structure Cell where
  name : String
  /-- Raw texts, and indices of entries. -/
  values : List (Value Nat)
  deriving DecidableEq

/-- The stored form of a node. -/
structure Entry where
  constructor : String
  cells : List Cell
  deriving DecidableEq

/-- An entry that keeps an index free until its node is laid out. -/
def Entry.reserved : Entry :=
  ⟨"", []⟩

end Table

/-- The stored form of a tree. -/
structure Table where
  entries : Array Table.Entry
  deriving DecidableEq

namespace Tree

/-- Values in which the children have the indices from `next` on. -/
def numberValues : Nat → List (Value Tree) → List (Value Nat)
  | _, [] => []
  | next, .child _ :: vs => .child next :: numberValues (next + 1) vs
  | next, .token text :: vs => .token text :: numberValues next vs

/-- Cells in which the children have the indices from `next` on. -/
def numberSlots : Nat → List (Slot Tree) → List Table.Cell
  | _, [] => []
  | next, s :: ss =>
    ⟨s.field.name, numberValues next s.values⟩ :: numberSlots (next + s.subtrees.length) ss

/-- The entry of a node whose children have the indices from `next` on. -/
def entry (next : Nat) (t : Tree) : Table.Entry :=
  ⟨t.name, numberSlots next t.slots⟩

/-- Lay out the trees that are still pending, each at its index, and all that is below them. -/
def layOut (entries : Array Table.Entry) : List (Tree × Nat) → Array Table.Entry
  | [] => entries
  | (t, i) :: pending =>
    let next := entries.size
    let kids := t.subtrees
    -- The last child goes to the front, so that its children are numbered next.
    layOut
      ((entries ++ Array.replicate kids.length Table.Entry.reserved).setIfInBounds i (t.entry next))
      ((kids.zipIdx next).reverse ++ pending)
termination_by pending => totalSize (pending.map Prod.fst)
decreasing_by
  have h := totalSize_subtrees t
  simp only [List.map_append, List.map_reverse, List.zipIdx_map_fst, List.map_cons,
    totalSize_append, totalSize_reverse, totalSize_cons]
  omega

/-- The table of a tree. -/
def toTable (t : Tree) : Table :=
  ⟨layOut #[.reserved] [(t, 0)]⟩

end Tree

end TypedSyntax
