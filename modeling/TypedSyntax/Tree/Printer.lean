import TypedSyntax.Tree.Basic

/-!
# Printing trees

The text of a tree: in parentheses the constructor name and the slots, each again in parentheses
with the field name and the values. Children are written in the same way and raw texts are quoted,
so the text of a tree shows all of it.
-/

namespace TypedSyntax

namespace Tree

mutual

/-- The text of a tree, followed by `rest`. -/
def write : Tree → List Char → List Char
  | ⟨p, slots⟩, rest => '(' :: (p.name.toList ++ writeSlots slots (')' :: rest))

/-- The text of a list of slots, followed by `rest`. -/
def writeSlots : List (Slot Tree) → List Char → List Char
  | [], rest => rest
  | s :: ss, rest => writeSlot s (writeSlots ss rest)

/-- The text of a slot, followed by `rest`. -/
def writeSlot : Slot Tree → List Char → List Char
  | ⟨f, values⟩, rest => ' ' :: '(' :: (f.name.toList ++ writeValues values (')' :: rest))

/-- The text of a list of values, followed by `rest`. -/
def writeValues : List (Value Tree) → List Char → List Char
  | [], rest => rest
  | v :: vs, rest => ' ' :: writeValue v (writeValues vs rest)

/-- The text of a value, followed by `rest`. -/
def writeValue : Value Tree → List Char → List Char
  | .child t, rest => t.write rest
  | .token text, rest => quotedChars '\x22' text.toList ++ rest

end

/-- The text of a tree. -/
def render (t : Tree) : String :=
  String.ofList (t.write [])

end Tree

end TypedSyntax
