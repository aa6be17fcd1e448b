import TypedSyntax.Tree.Table

/-!
# Binding a table to a grammar

A stored table names constructors and fields only. Binding it to a grammar finds the production of
every entry and puts the tree together, or says what does not fit.

An entry comes after its parent, so the entries are bound from the last to the first, and the
children of an entry are ready when it is bound. A tree that has been built waits at the index of
its entry until its parent takes it. A tree is taken once, and at the end none but the root may
still wait.

* `Tree.ofTable`: the tree of a table, or the first problem. Every entry is looked at, whether or
  not the root reaches it.
-/

namespace TypedSyntax

namespace Tree

/-- The trees that have been built and not yet taken, each at the index of its entry. -/
abbrev Waiting := Array (Option Tree)

/-- Take the tree that waits at the index `child`, for the entry at the index `parent`. -/
def take (parent child : Nat) (waiting : Waiting) : Except GrammarError (Tree × Waiting) :=
  if child ≤ parent ∨ waiting.size ≤ child then
    .error (.storedLayout (.reference parent child))
  else
    -- Every entry after the parent has been built, so a tree that is not there has been taken.
    match waiting[child]? with
    | some (some t) => .ok (t, waiting.setIfInBounds child none)
    | _ => .error (.storedLayout (.referencedTwice child))

/-- Bind the values of one field. A field of primitive type holds raw texts, and any other field
holds trees of its type. -/
def bindValues (primitive : Bool) (f : Field) (parent : Nat) :
    List (Value Nat) → Waiting → Except GrammarError (List (Value Tree) × Waiting)
  | [], waiting => .ok ([], waiting)
  | .token text :: vs, waiting =>
    if primitive then do
      let (bound, waiting) ← bindValues primitive f parent vs waiting
      .ok (.token text :: bound, waiting)
    else .error (.typeMismatch f.name f.typeName (.token text))
  | .child i :: vs, waiting =>
    if primitive then .error (.typeMismatch f.name f.typeName (.entry i))
    else do
      let (t, waiting) ← take parent i waiting
      if t.production.typeName = f.typeName then
        let (bound, waiting) ← bindValues primitive f parent vs waiting
        .ok (.child t :: bound, waiting)
      else .error (.typeMismatch f.name f.typeName (.tree t.production.typeName))

/-- Bind fields to the cells of an entry, one after the other. -/
def bindSlots (g : Grammar) (parent : Nat) :
    List (Field × Table.Cell) → Waiting → Except GrammarError (List (Slot Tree) × Waiting)
  | [], waiting => .ok ([], waiting)
  | (f, cell) :: rest, waiting => do
    let (values, waiting) ← bindValues (g.isPrimitive f.typeName) f parent cell.values waiting
    let slot : Slot Tree := ⟨f, values⟩
    slot.check
    let (slots, waiting) ← bindSlots g parent rest waiting
    .ok (slot :: slots, waiting)

/-- Bind one entry, whose fields must have the names of those of its production. -/
def bindEntry (g : Grammar) (i : Nat) (e : Table.Entry) (waiting : Waiting) :
    Except GrammarError (Tree × Waiting) := do
  let p ← g.production e.constructor
  match firstDifference? (p.fields.map Field.name) (e.cells.map Table.Cell.name) with
  | some (expected, found) => .error (.fieldMismatch e.constructor expected found)
  | none =>
    let (slots, waiting) ← bindSlots g i (p.fields.zip e.cells) waiting
    .ok (⟨p, slots⟩, waiting)

/-- Bind entries in the given order, each with its index. -/
def bindEntries (g : Grammar) : List (Table.Entry × Nat) → Waiting → Except GrammarError Waiting
  | [], waiting => .ok waiting
  | (e, i) :: rest, waiting => do
    let (t, waiting) ← bindEntry g i e waiting
    bindEntries g rest (waiting.setIfInBounds i (some t))

/-- The tree that waits at the root, where no other tree may wait. -/
def root (waiting : List (Option Tree)) : Except GrammarError Tree :=
  match waiting with
  | some t :: rest =>
    match rest.findIdx? Option.isSome with
    | some i => .error (.storedLayout (.neverReferenced (i + 1)))
    | none => .ok t
  | _ => .error (.storedLayout .empty)

/-- The tree that a table describes over a grammar. -/
def ofTable (g : Grammar) (table : Table) : Except GrammarError Tree := do
  let entries := table.entries.toList.zipIdx.reverse
  let waiting ← bindEntries g entries (Array.replicate table.entries.size none)
  root waiting.toList

end Tree

end TypedSyntax
