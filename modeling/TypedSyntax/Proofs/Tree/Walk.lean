import Mathlib.Algebra.GroupWithZero.Nat
import TypedSyntax.Proofs.Tree.Binding

/-!
# What the walks over a tree compute

`Tree.size` and `Tree.validate` keep a list of trees that are still to be visited. Here each walk is
said in terms of the tree alone:

* `Tree.size_eq` — a tree has one node more than its children together;
* `Tree.length_preorder` — the size of a tree is the number of trees read in pre-order;
* `Tree.validate_eq_forM` — validating a tree is checking its slots one after the other in
  pre-order, so that a tree is valid exactly if every slot of every node holds as many values as its
  cardinality admits (`Tree.validate_eq_ok_iff`), and an error is that of the first slot that does
  not (`Tree.validate_eq_error_iff`);
* `Tree.walks_exact` — the two walks together;
* `Table.Describes.perm_preorder` — the trees of the entries of a table are the nodes of the tree
  that it describes, so that this tree has as many nodes as the table has entries
  (`Table.Describes.size_eq`).

The walks treat the pending trees independently of each other. So what is proved by induction along
a walk is about a list of trees, and the statement about one tree is the case of a single one.
Counting takes the last child first, and does not depend on the order of the pending trees
(`Tree.countFrom_perm`). Validating does, because it stops at the first error.
-/

namespace TypedSyntax

namespace Tree

/-! ### Counting -/

/-- The walk only adds to the count it starts from. -/
theorem countFrom_add (count k : Nat) (pending : List Tree) :
    countFrom (count + k) pending = countFrom count pending + k := by
  fun_induction countFrom count pending with
  | case1 count => rw [countFrom]
  | case2 count t pending ih => rw [countFrom, Nat.add_right_comm, ih]

/-- Trees that come later are counted on from those that come first. -/
theorem countFrom_append (count : Nat) (ts us : List Tree) :
    countFrom count (ts ++ us) = countFrom (countFrom count ts) us := by
  fun_induction countFrom count ts with
  | case1 count => rfl
  | case2 count t pending ih => rw [List.cons_append, countFrom, ← List.append_assoc, ih]

/-- The walk over a list of trees counts each of them by itself. -/
theorem countFrom_eq_sum (ts : List Tree) : countFrom 0 ts = (ts.map size).sum := by
  induction ts with
  | nil => rw [countFrom, List.map_nil, List.sum_nil]
  | cons t ts ih =>
    have hadd := countFrom_add 0 (countFrom 0 [t]) ts
    rw [Nat.zero_add] at hadd
    rw [← List.singleton_append, countFrom_append, hadd, ih, Nat.add_comm]
    rfl

/-- The pending trees may be taken in any order. -/
theorem countFrom_perm (count : Nat) {ts us : List Tree} (h : ts.Perm us) :
    countFrom count ts = countFrom count us := by
  -- What a list of trees adds to the count is a sum over the list.
  rw [← Nat.zero_add count, countFrom_add, countFrom_add, countFrom_eq_sum, countFrom_eq_sum,
    (h.map size).sum_nat]

/-- **The size of a tree.** A tree has one node more than its children together. -/
theorem size_eq (t : Tree) : t.size = 1 + (t.subtrees.map size).sum := by
  -- The walk takes the last child first, which the sum does not show.
  have hsum : (t.subtrees.reverse.map size).sum = (t.subtrees.map size).sum :=
    ((List.reverse_perm t.subtrees).map size).sum_nat
  rw [size, countFrom, List.append_nil, countFrom_add, countFrom_eq_sum, hsum, Nat.add_comm]

/-- A tree and all trees below it, each before its children, left to right. -/
def preorder (t : Tree) : List Tree :=
  t :: t.subtrees.attach.flatMap fun s => preorder s.1
termination_by sizeOf t
decreasing_by exact sizeOf_lt_of_mem_subtrees s.2

theorem preorder_eq (t : Tree) : t.preorder = t :: t.subtrees.flatMap preorder := by
  rw [preorder, List.flatMap_subtype fun _ _ => rfl, List.unattach_attach]

theorem length_preorder (t : Tree) : t.preorder.length = t.size := by
  induction t using inductionOn with
  | step t ih =>
    rw [preorder_eq, List.length_cons, List.length_flatMap, size_eq, Nat.add_comm,
      List.map_congr_left ih]

/-! ### Validating -/

theorem all_iff {P : Tree → Prop} {t : Tree} : t.All P ↔ P t ∧ ∀ s ∈ t.subtrees, s.All P :=
  ⟨fun h => ⟨h.here, h.deeper⟩, fun h => .intro h.1 h.2⟩

/-- Every slot of a node holds as many values as its cardinality admits. -/
def CountsAt (t : Tree) : Prop :=
  ∀ s ∈ t.slots, s.field.cardinality.admits s.values.length = true

theorem all_iff_forall_preorder {P : Tree → Prop} {t : Tree} :
    t.All P ↔ ∀ s ∈ t.preorder, P s := by
  induction t using inductionOn with
  | step t ih =>
    rw [all_iff, preorder_eq, List.forall_mem_cons, List.forall_mem_flatMap]
    exact and_congr_right fun _ => forall₂_congr ih

/-- The slots of a tree and of all trees below it, in pre-order: those of a node before those of its
children, and children left to right. -/
def slotsInOrder (t : Tree) : List (Slot Tree) :=
  t.preorder.flatMap slots

theorem slotsInOrder_eq (t : Tree) :
    t.slotsInOrder = t.slots ++ t.subtrees.flatMap slotsInOrder := by
  rw [slotsInOrder, preorder_eq, List.flatMap_cons, List.flatMap_assoc]
  rfl

/-- The walk checks the slots of the pending trees, one tree after the other. -/
theorem validateAll_eq_forM (pending : List Tree) :
    validateAll pending = (pending.flatMap slotsInOrder).forM Slot.check := by
  fun_induction validateAll pending with
  | case1 => rfl
  | case2 t pending ih =>
    -- The children of the first tree come before what was pending, as they do in pre-order.
    rw [ih, List.flatMap_cons, slotsInOrder_eq, List.append_assoc, ← List.flatMap_append]
    exact List.forM_append.symm

/-- **Validating a tree is checking its slots in pre-order.** The walk has a list of pending trees,
of which there is only one in the beginning. -/
theorem validate_eq_forM (t : Tree) : t.validate = t.slotsInOrder.forM Slot.check := by
  rw [validate, validateAll_eq_forM, List.flatMap_singleton]

/-- **Valid trees.** A tree is valid exactly if every slot of every node holds as many values as its
cardinality admits. -/
theorem validate_eq_ok_iff {t : Tree} : t.validate = .ok () ↔ t.All CountsAt := by
  rw [validate_eq_forM, forM_eq_ok_iff, slotsInOrder, List.forall_mem_flatMap,
    all_iff_forall_preorder]
  exact forall₂_congr fun s _ => forall₂_congr fun slot _ => check_eq_ok_iff

theorem check_eq_error_iff {s : Slot Tree} {e : GrammarError} :
    s.check = .error e ↔ s.field.cardinality.admits s.values.length = false ∧
      e = .cardinality s.field.name s.field.cardinality s.values.length := by
  unfold Slot.check
  cases s.field.cardinality.admits s.values.length with
  | true => exact ⟨nofun, fun h => absurd h.1 nofun⟩
  | false =>
    rw [if_neg Bool.false_ne_true, Except.error.injEq, eq_comm]
    exact (and_iff_right rfl).symm

/-- A slot is the first one in pre-order that holds another number of values than its cardinality
admits. -/
def FirstMisfit (t : Tree) (s : Slot Tree) : Prop :=
  ∃ before after, t.slotsInOrder = before ++ s :: after ∧
    (∀ r ∈ before, r.field.cardinality.admits r.values.length = true) ∧
    s.field.cardinality.admits s.values.length = false

/-- **Invalid trees.** The error is that of the first slot in pre-order that does not fit. -/
theorem validate_eq_error_iff {t : Tree} {e : GrammarError} :
    t.validate = .error e ↔ ∃ s, t.FirstMisfit s ∧
      e = .cardinality s.field.name s.field.cardinality s.values.length := by
  rw [validate_eq_forM, forM_eq_error_iff]
  constructor
  · rintro ⟨before, s, after, hsplit, hbefore, hs⟩
    obtain ⟨hmisfit, rfl⟩ := check_eq_error_iff.1 hs
    exact ⟨s, ⟨before, after, hsplit, fun r hr => check_eq_ok_iff.1 (hbefore r hr), hmisfit⟩, rfl⟩
  · rintro ⟨s, ⟨before, after, hsplit, hbefore, hmisfit⟩, rfl⟩
    exact ⟨before, s, after, hsplit, fun r hr => check_eq_ok_iff.2 (hbefore r hr),
      check_eq_error_iff.2 ⟨hmisfit, rfl⟩⟩

/-- **The walks compute what the recursion over the tree says.** The size is one more than the sizes
of the children together, in whatever order the pending trees are taken. A tree is valid exactly if
every slot of every node fits, and otherwise the error is that of the first slot in pre-order that
does not. -/
theorem walks_exact (t : Tree) :
    (t.size = 1 + (t.subtrees.map size).sum ∧
      ∀ count (ts us : List Tree), ts.Perm us → countFrom count ts = countFrom count us) ∧
    (t.validate = .ok () ↔ t.All CountsAt) ∧
      ∀ e, t.validate = .error e ↔ ∃ s, t.FirstMisfit s ∧
        e = .cardinality s.field.name s.field.cardinality s.values.length :=
  ⟨⟨size_eq t, fun count _ _ h => countFrom_perm count h⟩, validate_eq_ok_iff,
    fun _ => validate_eq_error_iff⟩

/-- A well-typed tree is valid. The converse fails, since validity does not look at types. -/
theorem WellTyped.validate {g : Grammar} {t : Tree} (h : t.WellTyped g) : t.validate = .ok () :=
  validate_eq_ok_iff.2 (h.imp fun _ ht => ht.counts)

end Tree

/-! ### The size of what a table describes -/

namespace Table

/-- What one reads below some entries, entry by entry, are the trees of these entries and what one
reads below the entries that they refer to. -/
theorem flatMap_preorder_perm {tree : Nat → Tree} {es : List Entry} {k : Nat}
    (h : ∀ e i, (e, i) ∈ es.zipIdx k → e.Describes tree (tree i)) :
    ((List.range' k es.length).flatMap fun i => (tree i).preorder).Perm
      ((List.range' k es.length).map tree ++ (refs es).flatMap fun j => (tree j).preorder) := by
  induction es generalizing k with
  | nil => exact .nil
  | cons e es ih =>
    have hhere : (tree k).preorder = tree k :: e.refs.flatMap fun j => (tree j).preorder := by
      have hdesc := h e k (List.zipIdx_cons ▸ List.mem_cons_self)
      rw [Tree.preorder_eq, hdesc.subtrees, List.flatMap_map]
    have hrest := ih fun e' i hi => h e' i (List.zipIdx_cons ▸ List.mem_cons_of_mem _ hi)
    rw [List.length_cons, List.range'_succ, List.flatMap_cons, hhere, List.map_cons, refs_cons,
      List.flatMap_append]
    -- What the first entry refers to moves behind the trees of the other entries.
    exact ((hrest.append_left _).trans (List.perm_append_comm_assoc _ _ _)).cons _

/-- **The trees of the entries are the nodes of the tree that a table describes**, each as often as
it occurs there. -/
theorem Describes.perm_preorder {table : Table} {tree : Nat → Tree} (h : table.Describes tree) :
    ((List.range table.entries.size).map tree).Perm (tree 0).preorder := by
  have hperm := flatMap_preorder_perm fun e i hi => h.entry i e (Tree.mem_zipIdx_entries.1 hi)
  have hpos := h.pos
  have hsize : table.entries.size = table.entries.size - 1 + 1 := by omega
  -- The entries refer to every tree but the first, once each, so all that is below them cancels.
  have hbelow := h.once.flatMap_right fun j => (tree j).preorder
  have hall := hperm.trans (hbelow.append_left _)
  rw [Array.length_toList] at hall
  nth_rewrite 1 [hsize] at hall
  rw [List.range'_succ, List.flatMap_cons, Nat.zero_add, List.perm_append_right_iff] at hall
  rw [List.range_eq_range']
  exact hall.symm

/-- **The tree that a table describes has as many nodes as the table has entries.** -/
theorem Describes.size_eq {table : Table} {tree : Nat → Tree} (h : table.Describes tree) :
    (tree 0).size = table.entries.size := by
  rw [← Tree.length_preorder, ← h.perm_preorder.length_eq, List.length_map, List.length_range]

end Table

end TypedSyntax
