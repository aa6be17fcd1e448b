import Mathlib.Data.List.Range
import TypedSyntax.Proofs.Tree.Typing
import TypedSyntax.Tree.Table

/-!
# What a table describes

A table describes a family of trees, one for each entry: the tree of an entry has the names and
texts of the entry, and where the entry refers to another one it has the tree of that entry
(`Table.Entry.Describes`). For the table to describe one tree as a whole, an entry may only refer to
later ones, and every entry but the first is referred to exactly once (`Table.Describes`).

* `Table.forward_induction` — induction along the references, from the end of the table.
* `Tree.exists_describes_toTable` — the table of a tree describes it.
* `Table.Describes.all` — what holds of all nodes of the described tree holds of the tree of every
  entry.

`Tree.layOut` keeps entries in reserve for nodes that are still pending. Its invariant
(`Tree.LaidOut`) says of the entries that are done what `Table.Describes` says of all, and that the
references made so far are exactly the indices given out so far. One round of the loop keeps it
(`Tree.LaidOut.step`), with the family of trees extended by the children that got an index.
-/

namespace TypedSyntax

/-! ### References -/

/-- A value with another child, or the same text. -/
def Value.map {α β : Type} (f : α → β) : Value α → Value β
  | .child a => .child (f a)
  | .token text => .token text

theorem Value.children_cons {α : Type} (a : α) (vs : List (Value α)) :
    (Value.child a :: vs).filterMap Value.tree? = a :: vs.filterMap Value.tree? :=
  rfl

namespace Table

/-- The indices in a cell, left to right. -/
def Cell.refs (c : Cell) : List Nat :=
  c.values.filterMap Value.tree?

/-- The indices in an entry, left to right. -/
def Entry.refs (e : Entry) : List Nat :=
  e.cells.flatMap Cell.refs

/-- The indices in all entries. -/
def refs (entries : List Entry) : List Nat :=
  entries.flatMap Entry.refs

theorem refs_cons (e : Entry) (es : List Entry) : refs (e :: es) = e.refs ++ refs es :=
  List.flatMap_cons

/-- An entry is that of a tree, if every index stands for the tree at that index. -/
structure Entry.Describes (tree : Nat → Tree) (e : Entry) (t : Tree) : Prop where
  name : e.constructor = t.name
  /-- The cells have the names of the slots, and their values with trees in place of indices. -/
  cells : e.cells.map (fun c => (c.name, c.values.map (Value.map tree))) =
    t.slots.map (fun s => (s.field.name, s.values))

/-- Every entry is that of the tree at its index, an entry refers to later ones only, and every
index but 0 is referred to exactly once. -/
structure Describes (table : Table) (tree : Nat → Tree) : Prop where
  /-- There is an entry for the root. -/
  pos : 0 < table.entries.size
  entry : ∀ i (e : Entry), table.entries[i]? = some e → e.Describes tree (tree i)
  forward : ∀ i (e : Entry), table.entries[i]? = some e → ∀ j ∈ e.refs, i < j
  once : (refs table.entries.toList).Perm (List.range' 1 (table.entries.size - 1))

/-- Only the trees that a cell refers to matter for its values. -/
theorem map_congr_of_refs {tree tree' : Nat → Tree} {c : Cell}
    (h : ∀ j ∈ c.refs, tree j = tree' j) :
    c.values.map (Value.map tree) = c.values.map (Value.map tree') := by
  refine List.map_congr_left fun v hv => ?_
  cases v with
  | token text => rfl
  | child j =>
    have hj : j ∈ c.refs := List.mem_filterMap.2 ⟨_, hv, rfl⟩
    rw [Value.map, Value.map, h j hj]

/-- Only the trees that an entry refers to matter for what it describes. -/
theorem Entry.Describes.congr {tree tree' : Nat → Tree} {e : Entry} {t : Tree}
    (h : e.Describes tree t) (heq : ∀ j ∈ e.refs, tree j = tree' j) : e.Describes tree' t := by
  refine ⟨h.name, ?_⟩
  rw [← h.cells]
  refine List.map_congr_left fun c hc => ?_
  rw [map_congr_of_refs fun j hj => heq j (List.mem_flatMap.2 ⟨c, hc, hj⟩)]

/-- An entry refers to the children of the tree it describes. -/
theorem Entry.Describes.subtrees {tree : Nat → Tree} {e : Entry} {t : Tree}
    (h : e.Describes tree t) : t.subtrees = e.refs.map tree := by
  -- The values of the slots are those of the cells, with a tree in place of each index.
  have hvalues : t.slots.map Slot.values =
      e.cells.map (fun c => c.values.map (Value.map tree)) := by
    have := congrArg (List.map Prod.snd) h.cells
    simpa [List.map_map, Function.comp_def] using this.symm
  have hsub : t.subtrees = (t.slots.map Slot.values).flatMap (List.filterMap Value.tree?) := by
    rw [Tree.subtrees, List.flatMap_map]
    rfl
  rw [hsub, hvalues, List.flatMap_map, Entry.refs, List.map_flatMap]
  refine List.flatMap_congr fun c _ => ?_
  rw [Cell.refs, List.filterMap_map, List.map_filterMap]
  refine List.filterMap_congr fun v _ => ?_
  cases v <;> rfl

/-- If the references are the indices from 1 on, none of them is past the end. -/
theorem ref_lt_of_perm {entries : Array Entry}
    (honce : (refs entries.toList).Perm (List.range' 1 (entries.size - 1))) {i j : Nat} {e : Entry}
    (he : entries[i]? = some e) (hj : j ∈ e.refs) : j < entries.size := by
  have hmem : j ∈ refs entries.toList :=
    List.mem_flatMap.2 ⟨e, List.mem_of_getElem? (i := i) (by simpa using he), hj⟩
  rw [honce.mem_iff, List.mem_range'_1] at hmem
  omega

/-- Every index that is held is that of a later entry. -/
theorem Describes.refs_later {table : Table} {tree : Nat → Tree} (h : table.Describes tree) :
    ∀ i (e : Entry), table.entries[i]? = some e → ∀ j ∈ e.refs, i < j ∧ j < table.entries.size :=
  fun i e he j hj => ⟨h.forward i e he j hj, ref_lt_of_perm h.once he hj⟩

/-- **Induction from the end of a table.** Where entries refer to later entries only, what passes to
an entry from those that it refers to holds of all entries. -/
theorem forward_induction {table : Table} {P : Nat → Prop}
    (hlater : ∀ i (e : Entry), table.entries[i]? = some e →
      ∀ j ∈ e.refs, i < j ∧ j < table.entries.size)
    (step : ∀ i (e : Entry), table.entries[i]? = some e → (∀ j ∈ e.refs, P j) → P i)
    (i : Nat) (hi : i < table.entries.size) : P i :=
  have he : table.entries[i]? = some table.entries[i] := Array.getElem?_eq_getElem hi
  step i _ he fun j hj =>
    have hj' := hlater i _ he j hj
    forward_induction hlater step j hj'.2
termination_by table.entries.size - i

/-- **What holds of all nodes of the described tree holds of the tree of every entry.** -/
theorem Describes.all {table : Table} {tree : Nat → Tree} {P : Tree → Prop}
    (h : table.Describes tree) (hP : (tree 0).All P) :
    ∀ i < table.entries.size, (tree i).All P := by
  intro i
  induction i using Nat.strong_induction_on with
  | h i ih =>
    intro hi
    by_cases hzero : i = 0
    · rw [hzero]
      exact hP
    -- Some entry refers to `i`. It comes earlier, and the tree at `i` is one of its children.
    have hmem : i ∈ refs table.entries.toList := by
      rw [h.once.mem_iff, List.mem_range'_1]
      omega
    obtain ⟨e, he, hie⟩ := List.mem_flatMap.1 hmem
    obtain ⟨k, hk, rfl⟩ := List.getElem_of_mem he
    have hget : table.entries[k]? = some table.entries.toList[k] := by simp
    have hlt : k < i := h.forward k _ hget i hie
    have hchild : tree i ∈ (tree k).subtrees := by
      rw [(h.entry k _ hget).subtrees]
      exact List.mem_map_of_mem hie
    exact (ih k hlt (by omega)).deeper (tree i) hchild

/-- What holds of the tree of every entry holds of all nodes of these trees. -/
theorem Describes.all_of_forall {table : Table} {tree : Nat → Tree} {P : Tree → Prop}
    (h : table.Describes tree) (hP : ∀ i < table.entries.size, P (tree i)) :
    ∀ i < table.entries.size, (tree i).All P := by
  refine forward_induction h.refs_later fun i e he ih => ?_
  refine .intro (hP i (Array.getElem?_eq_some_iff.1 he).1) fun s hs => ?_
  rw [(h.entry i e he).subtrees] at hs
  obtain ⟨j, hj, rfl⟩ := List.mem_map.1 hs
  exact ih j hj

end Table

namespace Tree

/-! ### Numbering the children of a node -/

/-- The children among the values are numbered from left to right, and texts are passed over. -/
theorem refs_numberValues (next : Nat) (vs : List (Value Tree)) :
    (numberValues next vs).filterMap Value.tree? =
      List.range' next (vs.filterMap Value.tree?).length := by
  induction vs generalizing next with
  | nil => rfl
  | cons v vs ih =>
    cases v with
    | token text =>
      rw [numberValues]
      exact ih next
    | child t =>
      rw [numberValues, Value.children_cons, Value.children_cons, ih (next + 1), List.length_cons,
        List.range'_succ]

/-- The children of all slots are numbered from left to right. -/
theorem refs_numberSlots (next : Nat) (ss : List (Slot Tree)) :
    (numberSlots next ss).flatMap Table.Cell.refs =
      List.range' next (ss.flatMap Slot.subtrees).length := by
  induction ss generalizing next with
  | nil => rfl
  | cons s ss ih =>
    -- The next slot goes on counting where this one stopped.
    rw [numberSlots, List.flatMap_cons, List.flatMap_cons, ih, List.length_append,
      ← List.range'_append_1]
    exact congrArg (· ++ _) (refs_numberValues next s.values)

/-- The entry of a node refers to the indices from `next` on, one for each child. -/
theorem refs_entry (next : Nat) (t : Tree) :
    (t.entry next).refs = List.range' next t.subtrees.length :=
  refs_numberSlots next t.slots

/-- Where each number stands for its child, the numbered values are the values. -/
theorem map_numberValues {tree : Nat → Tree} {next : Nat} {vs : List (Value Tree)}
    (h : (List.range' next (vs.filterMap Value.tree?).length).map tree =
      vs.filterMap Value.tree?) :
    (numberValues next vs).map (Value.map tree) = vs := by
  induction vs generalizing next with
  | nil => rfl
  | cons v vs ih =>
    cases v with
    | token text =>
      rw [numberValues, List.map_cons, ih h]
      rfl
    | child t =>
      rw [Value.children_cons, List.length_cons, List.range'_succ, List.map_cons,
        List.cons.injEq] at h
      rw [numberValues, List.map_cons, ih h.2, Value.map, h.1]

/-- Where each number stands for its child, the numbered slots are the slots. -/
theorem map_numberSlots {tree : Nat → Tree} {next : Nat} {ss : List (Slot Tree)}
    (h : (List.range' next (ss.flatMap Slot.subtrees).length).map tree =
      ss.flatMap Slot.subtrees) :
    (numberSlots next ss).map (fun c => (c.name, c.values.map (Value.map tree))) =
      ss.map (fun s => (s.field.name, s.values)) := by
  induction ss generalizing next with
  | nil => rfl
  | cons s ss ih =>
    rw [List.flatMap_cons, List.length_append, ← List.range'_append_1, List.map_append] at h
    obtain ⟨hs, hss⟩ := List.append_inj h (by simp)
    rw [numberSlots, List.map_cons, List.map_cons, ih hss, map_numberValues hs]

/-- The entry of a node describes it, if its children have the indices from `next` on. -/
theorem describes_entry {tree : Nat → Tree} {next : Nat} {t : Tree}
    (h : (List.range' next t.subtrees.length).map tree = t.subtrees) :
    (t.entry next).Describes tree t :=
  ⟨rfl, map_numberSlots h⟩

/-! ### The loop -/

/-- The invariant of the loop. A pending node has an index, at which an entry is kept in reserve.
Every other entry is that of the tree at its index and refers to later ones. The references are the
indices from 1 on that have been given out. -/
structure LaidOut (entries : Array Table.Entry) (pending : List (Tree × Nat)) (tree : Nat → Tree) :
    Prop where
  pos : 0 < entries.size
  /-- No two pending nodes wait for the same entry. -/
  nodup : (pending.map Prod.snd).Nodup
  waiting : ∀ u i, (u, i) ∈ pending → tree i = u ∧ entries[i]? = some .reserved
  entry : ∀ i (e : Table.Entry), entries[i]? = some e → i ∉ pending.map Prod.snd →
    e.Describes tree (tree i)
  forward : ∀ i (e : Table.Entry), entries[i]? = some e → ∀ j ∈ e.refs, i < j
  once : (Table.refs entries.toList).Perm (List.range' 1 (entries.size - 1))

/-- The entries after one round of the loop. -/
def laidNext (entries : Array Table.Entry) (t : Tree) (i : Nat) : Array Table.Entry :=
  (entries ++ Array.replicate t.subtrees.length Table.Entry.reserved).setIfInBounds i
    (t.entry entries.size)

section Step

variable {entries : Array Table.Entry} {pending : List (Tree × Nat)} {tree : Nat → Tree}
  {t : Tree} {i : Nat}

theorem size_laidNext : (laidNext entries t i).size = entries.size + t.subtrees.length := by
  simp [laidNext]

/-- One round writes one entry and puts reserved ones behind the last. -/
theorem getElem?_laidNext (hi : i < entries.size) (j : Nat) :
    (laidNext entries t i)[j]? =
      if j = i then some (t.entry entries.size)
      else if j < entries.size then entries[j]?
      else if j < entries.size + t.subtrees.length then some .reserved
      else none := by
  unfold laidNext
  rw [Array.getElem?_setIfInBounds, Array.getElem?_append, Array.getElem?_replicate]
  simp only [Array.size_append, Array.size_replicate]
  grind

/-- A reserved entry holds no references, so one round adds those of the entry that takes its
place. -/
theorem refs_laidNext (hi : entries[i]? = some .reserved) :
    (Table.refs (laidNext entries t i).toList).Perm
      (Table.refs entries.toList ++ List.range' entries.size t.subtrees.length) := by
  obtain ⟨hlt, hget⟩ := Array.getElem?_eq_some_iff.1 hi
  -- Split the entries at the reserved one, which is the one that is replaced.
  obtain ⟨before, after, hsplit, hlen⟩ : ∃ before after : List Table.Entry,
      entries.toList = before ++ .reserved :: after ∧ before.length = i := by
    refine ⟨entries.toList.take i, entries.toList.drop (i + 1), ?_, by simp [Nat.le_of_lt hlt]⟩
    rw [← hget, ← Array.getElem_toList, List.getElem_cons_drop, List.take_append_drop]
  have hnext : (laidNext entries t i).toList =
      before ++ t.entry entries.size :: (after ++ List.replicate t.subtrees.length .reserved) := by
    rw [laidNext, Array.toList_setIfInBounds, Array.toList_append, Array.toList_replicate, hsplit,
      ← hlen]
    simp
  have hreserved : (List.replicate t.subtrees.length Table.Entry.reserved).flatMap
      Table.Entry.refs = [] := by
    rw [List.flatMap_eq_nil_iff]
    intro e he
    rw [List.eq_of_mem_replicate he]
    rfl
  rw [hnext, hsplit]
  simp only [Table.refs, List.flatMap_append, List.flatMap_cons, refs_entry, hreserved,
    List.append_nil, List.append_assoc]
  -- The new references stand in the middle; moving them to the end is a permutation.
  exact (List.perm_append_comm).append_left _

/-- The family of trees with the given ones at the indices from `next` on. -/
def extend (tree : Nat → Tree) (next : Nat) (kids : List Tree) (j : Nat) : Tree :=
  if j < next then tree j else (kids[j - next]?).getD (tree j)

theorem extend_of_lt {next j : Nat} {kids : List Tree} (h : j < next) :
    extend tree next kids j = tree j :=
  if_pos h

/-- From `next` on the family has the given trees. -/
theorem map_extend (next : Nat) (kids : List Tree) :
    (List.range' next kids.length).map (extend tree next kids) = kids := by
  refine List.ext_getElem (by simp) fun m hm hk => ?_
  simp [extend, hk]

theorem extend_add {next m : Nat} {kids : List Tree} (h : m < kids.length) :
    extend tree next kids (next + m) = kids[m] := by
  simp [extend, h]

theorem indices_append (next : Nat) (kids : List Tree) (pending : List (Tree × Nat)) :
    ((kids.zipIdx next).reverse ++ pending).map Prod.snd =
      (List.range' next kids.length).reverse ++ pending.map Prod.snd := by
  rw [List.map_append, List.map_reverse, List.zipIdx_map_snd]

namespace LaidOut

theorem lt_size {u : Tree} {j : Nat} (h : LaidOut entries pending tree) (hj : (u, j) ∈ pending) :
    j < entries.size :=
  (Array.getElem?_eq_some_iff.1 (h.waiting u j hj).2).1

theorem first_not_mem (h : LaidOut entries ((t, i) :: pending) tree) :
    i ∉ pending.map Prod.snd :=
  (List.nodup_cons.1 h.nodup).1

/-- The nodes that are pending after a round wait for different entries. -/
theorem nodup_step (h : LaidOut entries ((t, i) :: pending) tree) :
    (((t.subtrees.zipIdx entries.size).reverse ++ pending).map Prod.snd).Nodup := by
  rw [indices_append, List.nodup_append', List.nodup_reverse]
  refine ⟨List.nodup_range', (List.nodup_cons.1 h.nodup).2, fun j hnew hold => ?_⟩
  -- A new index is past the end, an old one is not.
  obtain ⟨⟨u, _⟩, hu, rfl⟩ := List.mem_map.1 hold
  have hge := (List.mem_range'_1.1 (List.mem_reverse.1 hnew)).1
  have hlt := h.lt_size (List.mem_cons_of_mem _ hu)
  exact absurd hge (Nat.not_le.2 hlt)

/-- Every node that is pending after a round has a reserved entry. -/
theorem waiting_step (h : LaidOut entries ((t, i) :: pending) tree) {u : Tree} {j : Nat}
    (huj : (u, j) ∈ (t.subtrees.zipIdx entries.size).reverse ++ pending) :
    extend tree entries.size t.subtrees j = u ∧ (laidNext entries t i)[j]? = some .reserved := by
  have hi := h.lt_size List.mem_cons_self
  rw [getElem?_laidNext hi]
  rcases List.mem_append.1 huj with huj | huj
  · -- A child that has just been given an index.
    obtain ⟨hge, hlen, hu⟩ := List.mem_zipIdx (List.mem_reverse.1 huj)
    obtain ⟨m, rfl⟩ := Nat.exists_eq_add_of_le hge
    have hm : m < t.subtrees.length := by omega
    rw [extend_add hm, if_neg (by omega), if_neg (by omega), if_pos hlen]
    exact ⟨by simp [hu], rfl⟩
  · -- A node that was pending before.
    obtain ⟨hu, hj⟩ := h.waiting u j (List.mem_cons_of_mem _ huj)
    have hlt := h.lt_size (List.mem_cons_of_mem _ huj)
    have hne : j ≠ i := fun heq => h.first_not_mem (heq ▸ List.mem_map_of_mem huj)
    rw [extend_of_lt hlt, if_neg hne, if_pos hlt]
    exact ⟨hu, hj⟩

/-- Every entry that is done after a round describes its tree. -/
theorem entry_step (h : LaidOut entries ((t, i) :: pending) tree) {j : Nat} {e : Table.Entry}
    (he : (laidNext entries t i)[j]? = some e)
    (hj : j ∉ ((t.subtrees.zipIdx entries.size).reverse ++ pending).map Prod.snd) :
    e.Describes (extend tree entries.size t.subtrees) (extend tree entries.size t.subtrees j) := by
  have hi := h.lt_size List.mem_cons_self
  rw [indices_append, List.mem_append, List.mem_reverse, List.mem_range'_1, not_or] at hj
  rw [getElem?_laidNext hi] at he
  split at he
  · -- The entry just written: its children are at the new indices.
    next heq =>
    obtain rfl := Option.some.inj he
    rw [heq, extend_of_lt hi, (h.waiting t i List.mem_cons_self).1]
    exact describes_entry (map_extend entries.size t.subtrees)
  · next hne =>
    split at he
    · -- An earlier entry: it refers to old indices only, where the family is what it was.
      next hlt =>
      have hold : j ∉ ((t, i) :: pending).map Prod.snd := by
        rw [List.map_cons, List.mem_cons]
        exact not_or.2 ⟨hne, hj.2⟩
      rw [extend_of_lt hlt]
      refine (h.entry j e he hold).congr fun k hk => ?_
      rw [extend_of_lt (Table.ref_lt_of_perm h.once he hk)]
    · next hge =>
      split at he
      · next hlt => exact absurd ⟨Nat.not_lt.1 hge, hlt⟩ hj.1
      · cases he

/-- References go forward: the children of the node get indices past the end. -/
theorem forward_step (h : LaidOut entries ((t, i) :: pending) tree) {j : Nat} {e : Table.Entry}
    (he : (laidNext entries t i)[j]? = some e) {k : Nat} (hk : k ∈ e.refs) : j < k := by
  have hi := h.lt_size List.mem_cons_self
  rw [getElem?_laidNext hi] at he
  split at he
  · next heq =>
    obtain rfl := Option.some.inj he
    rw [refs_entry, List.mem_range'_1] at hk
    rw [heq]
    exact Nat.lt_of_lt_of_le hi hk.1
  · split at he
    · exact h.forward j e he k hk
    · split at he
      · obtain rfl := Option.some.inj he
        exact absurd hk List.not_mem_nil
      · cases he

/-- The references are the indices from 1 on that have been given out, each of them once. -/
theorem once_step (h : LaidOut entries ((t, i) :: pending) tree) :
    (Table.refs (laidNext entries t i).toList).Perm
      (List.range' 1 ((laidNext entries t i).size - 1)) := by
  have hpos := h.pos
  have hres := (h.waiting t i List.mem_cons_self).2
  have hsize : (laidNext entries t i).size - 1 = (entries.size - 1) + t.subtrees.length := by
    rw [size_laidNext]
    omega
  have hstart : 1 + (entries.size - 1) = entries.size := by omega
  -- The indices given out before go up to the old size, the new ones follow.
  rw [hsize, ← List.range'_append_1, hstart]
  exact (refs_laidNext hres).trans (h.once.append_right _)

/-- **One round of the loop.** The first pending node gets its entry, and its children become
pending. -/
theorem step (h : LaidOut entries ((t, i) :: pending) tree) :
    LaidOut (laidNext entries t i) ((t.subtrees.zipIdx entries.size).reverse ++ pending)
      (extend tree entries.size t.subtrees) where
  pos := by
    rw [size_laidNext]
    exact Nat.add_pos_left h.pos _
  nodup := h.nodup_step
  waiting _ _ huj := h.waiting_step huj
  entry _ _ he hj := h.entry_step he hj
  forward _ _ he _ hk := h.forward_step he hk
  once := h.once_step

end LaidOut

end Step

/-- **The whole loop.** The family is only extended, so the trees at the old indices stay. -/
theorem LaidOut.layOut {entries : Array Table.Entry} {pending : List (Tree × Nat)}
    {tree : Nat → Tree} (h : LaidOut entries pending tree) :
    ∃ tree', (∀ i < entries.size, tree' i = tree i) ∧
      LaidOut (layOut entries pending) [] tree' := by
  fun_induction Tree.layOut entries pending generalizing tree with
  | case1 entries => exact ⟨tree, fun _ _ => rfl, h⟩
  | case2 entries t i pending next kids =>
    rename_i ih
    -- The rest of the loop may extend the family further, but past the new size only.
    obtain ⟨tree', hagree, h'⟩ := ih h.step
    refine ⟨tree', fun j hj => ?_, h'⟩
    have hj' : j < (laidNext entries t i).size := by
      rw [size_laidNext]
      omega
    rw [hagree j hj', extend_of_lt hj]

/-- **The table of a tree describes it.** The loop starts with an entry in reserve for the root and
ends when no node is pending, and then every entry is done. -/
theorem exists_describes_toTable (t : Tree) : ∃ tree, tree 0 = t ∧ t.toTable.Describes tree := by
  have hinit : LaidOut #[.reserved] [(t, 0)] (fun _ => t) := by
    have hzero : ∀ i (e : Table.Entry), #[Table.Entry.reserved][i]? = some e →
        i = 0 ∧ e = .reserved := by
      intro i e he
      cases i with
      | zero => exact ⟨rfl, (Option.some.inj he).symm⟩
      | succ i => exact absurd he (by simp)
    -- At the start there is one reserved entry, for the root, and no reference.
    refine ⟨Nat.zero_lt_one, List.nodup_singleton _, fun u i hu => ?_, fun i e he hi => ?_,
      fun i e he j hj => ?_, .nil⟩
    · obtain ⟨rfl, rfl⟩ := Prod.mk.inj (List.mem_singleton.1 hu)
      exact ⟨rfl, rfl⟩
    · exact absurd (hzero i e he).1 (by simpa using hi)
    · obtain ⟨-, rfl⟩ := hzero i e he
      exact absurd hj List.not_mem_nil
  obtain ⟨tree, hagree, h⟩ := hinit.layOut
  refine ⟨tree, hagree 0 Nat.zero_lt_one, ?_⟩
  exact
    { pos := h.pos
      entry := fun i e he => h.entry i e he List.not_mem_nil
      forward := h.forward
      once := h.once }

end Tree

end TypedSyntax
