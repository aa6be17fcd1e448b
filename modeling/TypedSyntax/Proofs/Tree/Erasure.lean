import Mathlib.Data.List.Nodup
import TypedSyntax.Proofs.Tree.Walk

/-!
# What a table keeps of a tree

A table has the names of constructors and fields, the texts, and which child stands where. That is a
tree without its types, here called *erased*. Nothing is asked of the tree that is stored: a slot
may hold any number of values, texts where its type wants trees, and trees of any type.

* `Table.unfolded?` — the erased tree that one gets by following the references from an entry on. It
  looks at the table only.
* `Table.Describes.unfolded?_eq` — an entry unfolds to the tree that it describes, erased.
* `Table.Describes.held_once` — every index but 0 is held by one value of one entry.
* `Tree.toTable_faithful` — the table of a tree has one entry for each node, all of them filled,
  refers to every entry but the first exactly once, and unfolds to the tree, erased.

The entries are filled in another order than that in which they are given out, but that matters only
to the loop. `Tree.exists_describes_toTable` gives the family of trees that the finished table
describes, one for each entry, and all that is said here follows from that family.
-/

namespace TypedSyntax

/-! ### Erased trees -/

/-- A tree without its types: the name of a constructor, and for each field its name and its
values. -/
inductive Erased where
  | node (constructor : String) (fields : List (String × List (Value Erased)))

namespace Tree

mutual

/-- The tree without its types. -/
def erase : Tree → Erased
  | ⟨p, slots⟩ => .node p.name (eraseSlots slots)

/-- The names and the erased values of slots. -/
def eraseSlots : List (Slot Tree) → List (String × List (Value Erased))
  | [] => []
  | ⟨f, values⟩ :: ss => (f.name, eraseValues values) :: eraseSlots ss

/-- Values with the children erased. -/
def eraseValues : List (Value Tree) → List (Value Erased)
  | [] => []
  | .child t :: vs => .child (erase t) :: eraseValues vs
  | .token text :: vs => .token text :: eraseValues vs

end

/-- The name and the erased values of a slot. -/
def eraseSlot (s : Slot Tree) : String × List (Value Erased) :=
  (s.field.name, s.values.map (Value.map erase))

theorem eraseValues_eq_map (vs : List (Value Tree)) :
    eraseValues vs = vs.map (Value.map erase) := by
  induction vs with
  | nil => rw [eraseValues, List.map_nil]
  | cons v vs ih => cases v <;> rw [eraseValues, List.map_cons, ih, Value.map]

theorem eraseSlots_eq_map (ss : List (Slot Tree)) : eraseSlots ss = ss.map eraseSlot := by
  induction ss with
  | nil => rw [eraseSlots, List.map_nil]
  | cons s ss ih => rw [eraseSlots, List.map_cons, ih, eraseValues_eq_map, eraseSlot]

/-- A node keeps the name of its constructor, and its slots are erased one by one. -/
theorem erase_eq (t : Tree) : t.erase = .node t.name (t.slots.map eraseSlot) := by
  obtain ⟨p, slots⟩ := t
  rw [erase, eraseSlots_eq_map, name]

end Tree

/-! ### Unfolding -/

/-- A value with the child replaced, if it can be. -/
def Value.map? {α β : Type} (f : α → Option β) : Value α → Option (Value β)
  | .child a => (f a).map .child
  | .token text => some (.token text)

theorem mapM_eq_some_map {α β : Type} {f : α → Option β} {g : α → β} {xs : List α}
    (h : ∀ x ∈ xs, f x = some (g x)) : xs.mapM f = some (xs.map g) := by
  induction xs with
  | nil => rfl
  | cons x xs ih =>
    rw [List.forall_mem_cons] at h
    rw [List.mapM_cons, h.1, ih h.2]
    rfl

namespace Table

/-- The name and the values of a cell, with what its indices stand for. -/
def Cell.unfolded? (child : Nat → Option Erased) (c : Cell) :
    Option (String × List (Value Erased)) :=
  (c.values.mapM (Value.map? child)).map (Prod.mk c.name)

/-- The erased tree of an entry, from what its indices stand for. -/
def Entry.unfolded? (child : Nat → Option Erased) (e : Entry) : Option Erased :=
  (e.cells.mapM (Cell.unfolded? child)).map (Erased.node e.constructor)

/-- The erased tree of the entry at an index. References are followed to later entries, and there is
no tree if one leads elsewhere. -/
def unfolded? (table : Table) (i : Nat) : Option Erased :=
  if h : i < table.entries.size then
    table.entries[i].unfolded? fun j => if i < j then table.unfolded? j else none
  else none
termination_by table.entries.size - i

variable {table : Table} {tree : Nat → Tree} {child : Nat → Option Erased} {kept : Nat → Erased}
  {c : Cell} {e : Entry} {t : Tree}

theorem Cell.unfolded?_eq (h : ∀ j ∈ c.refs, child j = some (kept j)) :
    c.unfolded? child = some (c.name, c.values.map (Value.map kept)) := by
  have hvalues : ∀ v ∈ c.values, v.map? child = some (v.map kept) := by
    intro v hv
    cases v with
    | token text => rfl
    | child j =>
      have hj : j ∈ c.refs := List.mem_filterMap.2 ⟨_, hv, rfl⟩
      rw [Value.map?, h j hj, Option.map_some, Value.map]
  rw [Cell.unfolded?, mapM_eq_some_map hvalues, Option.map_some]

/-- An entry unfolds to the tree that it describes, if its indices stand for the trees they have in
the family. -/
theorem Entry.Describes.unfolded?_eq (h : e.Describes tree t)
    (hchild : ∀ j ∈ e.refs, child j = some (tree j).erase) : e.unfolded? child = some t.erase := by
  have hunfold : ∀ c ∈ e.cells, c.unfolded? child =
      some (c.name, c.values.map (Value.map fun j => (tree j).erase)) :=
    fun c hc => Cell.unfolded?_eq fun j hj => hchild j (List.mem_flatMap.2 ⟨c, hc, hj⟩)
  have hvalue : ∀ v : Value Nat, (v.map tree).map Tree.erase = v.map fun j => (tree j).erase := by
    intro v
    cases v <;> rfl
  -- Cells and slots have the same names and values, so they are erased to the same.
  have hslots : e.cells.map (fun c => (c.name, c.values.map (Value.map fun j => (tree j).erase))) =
      t.slots.map Tree.eraseSlot := by
    have herase := congrArg (List.map fun x => (x.1, x.2.map (Value.map Tree.erase))) h.cells
    simp only [List.map_map, Function.comp_def, hvalue] at herase
    exact herase
  rw [Entry.unfolded?, mapM_eq_some_map hunfold, Option.map_some, hslots, h.name, Tree.erase_eq]

/-- **An entry unfolds to the tree that it describes, erased.** -/
theorem Describes.unfolded?_eq (h : table.Describes tree) :
    ∀ i < table.entries.size, table.unfolded? i = some (tree i).erase := by
  refine forward_induction h.refs_later fun i e he ih => ?_
  obtain ⟨hi, hget⟩ := Array.getElem?_eq_some_iff.1 he
  have hchild : ∀ j ∈ e.refs,
      (if i < j then table.unfolded? j else none) = some (tree j).erase := by
    intro j hj
    rw [if_pos (h.forward i e he j hj), ih j hj]
  rw [unfolded?, dif_pos hi, hget, (h.entry i e he).unfolded?_eq hchild]

/-! ### Who holds an index -/

/-- If no index occurs twice among the references, no two entries hold the same one. -/
theorem holder_unique {es : List Entry} (h : (refs es).Nodup) {i i' j : Nat} {e e' : Entry}
    (he : es[i]? = some e) (he' : es[i']? = some e') (hj : j ∈ e.refs) (hj' : j ∈ e'.refs) :
    i = i' := by
  -- Entries at different places hold different indices, whichever comes first.
  have hdisjoint := List.pairwise_iff_getElem.1 (List.nodup_flatMap.1 h).2
  obtain ⟨hi, rfl⟩ := List.getElem?_eq_some_iff.1 he
  obtain ⟨hi', rfl⟩ := List.getElem?_eq_some_iff.1 he'
  rcases Nat.lt_trichotomy i i' with hlt | heq | hlt
  · exact absurd hj' (hdisjoint i i' hi hi' hlt hj)
  · exact heq
  · exact absurd hj (hdisjoint i' i hi' hi hlt hj')

/-- **Every index but 0 is held by one value of one entry**, which comes earlier. -/
theorem Describes.held_once (h : table.Describes tree) {j : Nat} (hpos : 1 ≤ j)
    (hj : j < table.entries.size) :
    ∃ i e, table.entries[i]? = some e ∧ i < j ∧ e.refs.count j = 1 ∧
      ∀ i' e', table.entries[i']? = some e' → j ∈ e'.refs → i' = i := by
  have hmem : j ∈ refs table.entries.toList := by
    rw [h.once.mem_iff, List.mem_range'_1]
    omega
  -- No index occurs twice among the references, neither within one entry nor in two.
  have hnodup : (refs table.entries.toList).Nodup := h.once.nodup_iff.2 List.nodup_range'
  obtain ⟨e, he, hje⟩ := List.mem_flatMap.1 hmem
  obtain ⟨i, hi⟩ := List.mem_iff_getElem?.1 he
  have hget : table.entries[i]? = some e := by rwa [Array.getElem?_toList] at hi
  have hcount : e.refs.count j = 1 :=
    List.count_eq_one_of_mem ((List.nodup_flatMap.1 hnodup).1 e he) hje
  refine ⟨i, e, hget, h.forward i e hget j hje, hcount, fun i' e' he' hje' => ?_⟩
  exact holder_unique hnodup (by rwa [Array.getElem?_toList]) hi hje' hje

/-! ### The table of a tree -/

/-- A table is a faithful layout of a tree: nothing of the tree is left out, nothing is in the table
twice, and the tree can be read off again. -/
structure FaithfulTo (table : Table) (t : Tree) : Prop where
  /-- There is one entry for each node. -/
  size : table.entries.size = t.size
  /-- Every entry is that of a node, and every node has an entry. The first entry is that of the
  root. -/
  filled : ∃ node : Nat → Tree, node 0 = t ∧
    ((List.range table.entries.size).map node).Perm t.preorder ∧
    ∀ i (e : Entry), table.entries[i]? = some e → e.Describes node (node i)
  /-- An entry looks like one in reserve only if its node has neither a name nor a slot. -/
  reserved : ∀ i : Nat, table.entries[i]? = some .reserved →
    ∃ s ∈ t.preorder, s.name = "" ∧ s.slots = []
  /-- Every index from 1 on is held by exactly one value of exactly one entry, and that entry comes
  earlier. -/
  held : ∀ j, 1 ≤ j → j < table.entries.size →
    ∃ i e, table.entries[i]? = some e ∧ i < j ∧ e.refs.count j = 1 ∧
      ∀ i' e', table.entries[i']? = some e' → j ∈ e'.refs → i' = i
  /-- No other index is held. -/
  later : ∀ i (e : Entry), table.entries[i]? = some e →
    ∀ j ∈ e.refs, i < j ∧ j < table.entries.size
  /-- Following the references from the first entry on gives the names, the texts and the children
  of the tree. -/
  unfolds : table.unfolded? 0 = some t.erase

/-- An entry that looks like one in reserve is that of a node with neither a name nor a slot. -/
theorem Describes.of_reserved (h : table.Describes tree) {i : Nat}
    (hi : table.entries[i]? = some .reserved) :
    ∃ s ∈ (tree 0).preorder, s.name = "" ∧ s.slots = [] := by
  have hdesc := h.entry i _ hi
  have hlt : i < table.entries.size := (Array.getElem?_eq_some_iff.1 hi).1
  have hnode : tree i ∈ (tree 0).preorder :=
    h.perm_preorder.mem_iff.1 (List.mem_map_of_mem (List.mem_range.2 hlt))
  exact ⟨tree i, hnode, hdesc.name.symm, List.map_eq_nil_iff.1 hdesc.cells.symm⟩

end Table

namespace Tree

/-- **The table of a tree is a faithful layout of it**, whether or not the tree fits a grammar. -/
theorem toTable_faithful (t : Tree) : t.toTable.FaithfulTo t := by
  obtain ⟨node, rfl, h⟩ := t.exists_describes_toTable
  exact
    { size := h.size_eq.symm
      filled := ⟨node, rfl, h.perm_preorder, h.entry⟩
      reserved := fun _ hi => h.of_reserved hi
      held := fun _ hpos hj => h.held_once hpos hj
      later := h.refs_later
      unfolds := h.unfolded?_eq 0 h.pos }

end Tree

end TypedSyntax
