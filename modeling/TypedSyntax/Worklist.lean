/-!
# Worklists

A walk over a tree keeps a list of what is still to be visited, and replaces the first item by its
children. It ends because the children of an item together are smaller than the item, so that the
`totalSize` of the list goes down.
-/

namespace TypedSyntax

variable {α : Type} [SizeOf α]

/-- The sizes of the items of a worklist together. -/
def totalSize : List α → Nat
  | [] => 0
  | a :: as => sizeOf a + totalSize as

@[simp]
theorem totalSize_nil : totalSize ([] : List α) = 0 :=
  rfl

@[simp]
theorem totalSize_cons (a : α) (as : List α) : totalSize (a :: as) = sizeOf a + totalSize as :=
  rfl

@[simp]
theorem totalSize_append (as bs : List α) : totalSize (as ++ bs) = totalSize as + totalSize bs := by
  induction as with
  | nil => simp
  | cons a as ih =>
    simp only [List.cons_append, totalSize_cons, ih]
    omega

@[simp]
theorem totalSize_reverse (as : List α) : totalSize as.reverse = totalSize as := by
  induction as with
  | nil => rfl
  | cons a as ih =>
    simp only [List.reverse_cons, totalSize_append, totalSize_cons, totalSize_nil, ih]
    omega

theorem sizeOf_le_totalSize {a : α} {as : List α} (h : a ∈ as) : sizeOf a ≤ totalSize as := by
  obtain ⟨before, after, rfl⟩ := List.append_of_mem h
  simp only [totalSize_append, totalSize_cons]
  omega

end TypedSyntax
