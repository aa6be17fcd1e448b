/-!
# Documents

Structured data, as nodes, tables and declarations are stored and exchanged: null, truth values,
integers, texts, lists, and records of named documents. Numbers that are not written as integers
occur in no stored form, so their value is not kept. A record is the list of its entries, and
reading goes through it in this order. Documents are stored and exchanged with the names of every
record distinct and ascending, which is `Document.Ordered`; `Document.ofPairs` puts the entries of a
record in this order.
-/

namespace TypedSyntax

/-- Structured data. -/
inductive Document where
  | null
  | bool (value : Bool)
  | int (value : Int)
  /-- A number that is not written as an integer. -/
  | fraction
  | text (value : String)
  | list (items : List Document)
  | record (entries : List (String × Document))

namespace Document

/-- The names in every record of a document are distinct and ascending. -/
inductive Ordered : Document → Prop where
  | null : Ordered .null
  | bool (value : Bool) : Ordered (.bool value)
  | int (value : Int) : Ordered (.int value)
  | fraction : Ordered .fraction
  | text (value : String) : Ordered (.text value)
  | list {items : List Document} (each : ∀ d ∈ items, Ordered d) : Ordered (.list items)
  | record {entries : List (String × Document)}
      (names : entries.Pairwise fun e f => e.1 < f.1) (each : ∀ e ∈ entries, Ordered e.2) :
      Ordered (.record entries)

/-- Two entries in order make an ordered record. -/
theorem Ordered.pair {a b : String} {d e : Document} (h : a < b) (hd : d.Ordered)
    (he : e.Ordered) : Ordered (.record [(a, d), (b, e)]) := by
  refine .record (by simpa using h) fun entry hentry => ?_
  rcases List.mem_cons.1 hentry with rfl | hentry
  · exact hd
  · obtain rfl := List.mem_singleton.1 hentry
    exact he

/-- A list of documents that are made in order is in order. -/
theorem Ordered.list_map {α : Type} {f : α → Document} (h : ∀ a, (f a).Ordered) (items : List α) :
    Ordered (.list (items.map f)) := by
  refine .list fun d hd => ?_
  obtain ⟨a, -, rfl⟩ := List.mem_map.1 hd
  exact h a

/-- Insert a named document before the first one with a greater name. -/
def insert (name : String) (d : Document) : List (String × Document) → List (String × Document)
  | [] => [(name, d)]
  | e :: es => if name ≤ e.1 then (name, d) :: e :: es else e :: insert name d es

/-- The record of named documents. -/
def ofPairs (pairs : List (String × Document)) : Document :=
  .record (pairs.foldr (fun p es => insert p.1 p.2 es) [])

/-- A text, or nothing. -/
def text? : Document → Option String
  | .text s => some s
  | _ => none

/-- The items of a list, or nothing. -/
def list? : Document → Option (List Document)
  | .list items => some items
  | _ => none

/-- The members of a document of fixed layout. They are given by name in a record, where other
names do not matter, or by place in a list; a list may stop early but not go on. -/
def members? (names : List String) : Document → Option (List (Option Document))
  | .record entries => some (names.map fun name => entries.lookup name)
  | .list items =>
    if items.length ≤ names.length then some (names.mapIdx fun i _ => items[i]?) else none
  | _ => none

end Document

end TypedSyntax
