import TypedSyntax.Document.Basic
import TypedSyntax.Tree.Table

/-!
# Stored tables

The stored form of a table of nodes: a record with the entries under `nodes`; an entry has its
name under `constructor` and its cells under `fields`; a cell has its name under `name` and its
values under `values`. A value is a text, or the index of an entry as an integer of at most 64
bits. The cells of an entry and the values of a cell may be left out.
-/

namespace TypedSyntax

namespace Table

/-- The indices that a stored table can hold are those below this bound. -/
def indexBound : Nat :=
  UInt64.size

/-- The value that a document describes. -/
def loadValue? : Document → Option (Value Nat)
  | .text text => some (.token text)
  | .int (.ofNat i) => if i < indexBound then some (.child i) else none
  | _ => none

/-- The list that an optional member describes; without the member it is empty. -/
def loadList? {α : Type} (load? : Document → Option α) : Option Document → Option (List α)
  | none => some []
  | some (.list items) => items.mapM load?
  | some _ => none

/-- The cell that a document describes. -/
def Cell.load? (d : Document) : Option Cell :=
  match d.members? ["name", "values"] with
  | some [some (.text name), values] => (loadList? loadValue? values).map (Cell.mk name)
  | _ => none

/-- The entry that a document describes. -/
def Entry.load? (d : Document) : Option Entry :=
  match d.members? ["constructor", "fields"] with
  | some [some (.text name), cells] => (loadList? Cell.load? cells).map (Entry.mk name)
  | _ => none

/-- The table that a document describes. -/
def load? (d : Document) : Option Table :=
  match d.members? ["nodes"] with
  | some [some (.list nodes)] => (nodes.mapM Entry.load?).map fun entries => ⟨entries.toArray⟩
  | _ => none

/-- The stored form of a value. -/
def saveValue : Value Nat → Document
  | .child i => .int i
  | .token text => .text text

theorem ordered_saveValue (v : Value Nat) : (saveValue v).Ordered := by
  cases v with
  | child i => exact .int _
  | token text => exact .text _

/-- The stored form of a cell. -/
def Cell.save (c : Cell) : Document :=
  .record [("name", .text c.name), ("values", .list (c.values.map saveValue))]

theorem Cell.ordered_save (c : Cell) : c.save.Ordered :=
  .pair (by decide) (.text _) (.list_map ordered_saveValue c.values)

/-- The stored form of an entry. -/
def Entry.save (e : Entry) : Document :=
  .record [("constructor", .text e.constructor), ("fields", .list (e.cells.map Cell.save))]

theorem Entry.ordered_save (e : Entry) : e.save.Ordered :=
  .pair (by decide) (.text _) (.list_map Cell.ordered_save e.cells)

/-- The stored form of a table. -/
def save (t : Table) : Document :=
  .record [("nodes", .list (t.entries.toList.map Entry.save))]

/-- A table is stored with every record in order. -/
theorem ordered_save (t : Table) : t.save.Ordered :=
  .record (List.pairwise_singleton ..)
    (List.forall_mem_singleton.2 (.list_map Entry.ordered_save t.entries.toList))

end Table

end TypedSyntax
