import TypedSyntax.Proofs.Except
import TypedSyntax.Proofs.Tree.Layout
import TypedSyntax.Tree.Binding

/-!
# Which tables can be bound

Binding a table to a grammar succeeds exactly if the table describes a family of trees all of which
fit the grammar, and the result is the tree of the first entry (`Tree.ofTable_eq_ok_iff`).

The entries are bound from the last to the first. When the entries from some index on have been
bound, the trees that wait are those of the indices which none of these entries refers to
(`Tree.Waits`), and these entries describe trees that fit (`Tree.BoundFrom`). Binding one more entry
takes the trees it refers to and adds its own. What each function does to the waiting trees is said
by one lemma, from `Tree.take_eq_ok_iff` up to `Tree.bindEntry_eq_ok_iff`, in terms of the family of
trees; the loop is `Tree.bindEntries_eq_ok_iff`.

* `Tree.wellTyped_of_ofTable` — a tree that was bound is well typed;
* `Tree.ofTable_toTable` — a well-typed tree is bound back from its table.
-/

namespace TypedSyntax

namespace Tree

/-! ### Waiting trees -/

/-- The tree that waits at an index. -/
def treeAt? (waiting : Waiting) (j : Nat) : Option Tree :=
  waiting[j]?.join

/-- The waiting trees without those at some indices. -/
def clear (waiting : Waiting) (js : List Nat) : Waiting :=
  js.foldl (fun w j => w.setIfInBounds j none) waiting

section Waiting

variable {waiting waiting' : Waiting} {tree : Nat → Tree} {parent i j : Nat} {js ks : List Nat}
  {t : Tree}

theorem lt_size_of_treeAt? (h : treeAt? waiting j = some t) : j < waiting.size := by
  unfold treeAt? at h
  by_cases hj : j < waiting.size
  · exact hj
  · rw [Array.getElem?_eq_none (Nat.not_lt.1 hj)] at h
    exact absurd h nofun

/-- Storing at an index changes what waits there, and nothing else. -/
theorem treeAt?_set (o : Option Tree) (hi : i < waiting.size) :
    treeAt? (waiting.setIfInBounds i o) j = if j = i then o else treeAt? waiting j := by
  unfold treeAt?
  rw [Array.getElem?_setIfInBounds]
  by_cases h : i = j
  · rw [if_pos h, if_pos h.symm, if_pos (h ▸ hi), Option.join_some]
  · rw [if_neg h, if_neg (Ne.symm h)]

theorem treeAt?_set_none :
    treeAt? (waiting.setIfInBounds i none) j = if j = i then none else treeAt? waiting j := by
  by_cases hi : i < waiting.size
  · exact treeAt?_set none hi
  · rw [Array.setIfInBounds_eq_of_size_le (Nat.not_lt.1 hi)]
    split
    · next heq =>
      rw [heq, treeAt?, Array.getElem?_eq_none (Nat.not_lt.1 hi)]
      rfl
    · rfl

theorem clear_append : clear waiting (js ++ ks) = clear (clear waiting js) ks :=
  List.foldl_append

theorem clear_cons : clear waiting (j :: js) = clear (clear waiting [j]) js :=
  rfl

theorem size_clear : (clear waiting js).size = waiting.size := by
  induction js generalizing waiting with
  | nil => rfl
  | cons j js ih => rw [clear, List.foldl_cons, ← clear, ih, Array.size_setIfInBounds]

/-- At the indices that have been cleared nothing waits, and elsewhere what waited before. -/
theorem treeAt?_clear :
    treeAt? (clear waiting js) j = if j ∈ js then none else treeAt? waiting j := by
  induction js generalizing waiting with
  | nil => rfl
  | cons i js ih =>
    rw [clear, List.foldl_cons, ← clear, ih, treeAt?_set_none]
    by_cases hj : j = i
    · simp [hj]
    · simp [hj]

/-- The trees at some indices can be taken one after the other for an entry: they wait, they come
later, and no index occurs twice. -/
structure Takable (waiting : Waiting) (tree : Nat → Tree) (parent : Nat) (js : List Nat) :
    Prop where
  nodup : js.Nodup
  /-- References go forward. -/
  later : ∀ j ∈ js, parent < j
  /-- What waits at an index is the tree of that index. -/
  waits : ∀ j ∈ js, treeAt? waiting j = some (tree j)

/-- Trees can be taken in two goes: the second one finds what the first one has left. -/
theorem takable_append : Takable waiting tree parent (js ++ ks) ↔
    Takable waiting tree parent js ∧ Takable (clear waiting js) tree parent ks := by
  constructor
  · intro h
    obtain ⟨hjs, hks, hdisjoint⟩ := List.nodup_append'.1 h.nodup
    refine ⟨⟨hjs, ?_, ?_⟩, ⟨hks, ?_, fun k hk => ?_⟩⟩
    · exact fun j hj => h.later j (List.mem_append_left _ hj)
    · exact fun j hj => h.waits j (List.mem_append_left _ hj)
    · exact fun k hk => h.later k (List.mem_append_right _ hk)
    · rw [treeAt?_clear, if_neg fun hjs => hdisjoint hjs hk]
      exact h.waits k (List.mem_append_right _ hk)
  · rintro ⟨hjs, hks⟩
    -- What has been taken does not wait any more, so the second part does not meet the first.
    have hwaits : ∀ k ∈ ks, k ∉ js ∧ treeAt? waiting k = some (tree k) := by
      intro k hk
      have h := hks.waits k hk
      rw [treeAt?_clear] at h
      split at h
      · cases h
      · next hnot => exact ⟨hnot, h⟩
    refine ⟨?_, fun k hk => ?_, fun k hk => ?_⟩
    · exact List.nodup_append'.2 ⟨hjs.nodup, hks.nodup, fun k hk hk' => (hwaits k hk').1 hk⟩
    · exact (List.mem_append.1 hk).elim (hjs.later k) (hks.later k)
    · exact (List.mem_append.1 hk).elim (hjs.waits k) fun hk => (hwaits k hk).2

theorem takable_nil : Takable waiting tree parent [] :=
  ⟨List.nodup_nil, fun _ h => absurd h List.not_mem_nil, fun _ h => absurd h List.not_mem_nil⟩

/-- The first tree waits at a later index, and the others can be taken when it is gone. -/
theorem takable_cons : Takable waiting tree parent (j :: ks) ↔
    (parent < j ∧ treeAt? waiting j = some (tree j)) ∧
      Takable (clear waiting [j]) tree parent ks := by
  have hone : Takable waiting tree parent [j] ↔
      parent < j ∧ treeAt? waiting j = some (tree j) := by
    constructor
    · intro h
      exact ⟨h.later j List.mem_cons_self, h.waits j List.mem_cons_self⟩
    · rintro ⟨hlt, hat⟩
      refine ⟨List.nodup_singleton _, fun k hk => ?_, fun k hk => ?_⟩
      · exact List.mem_singleton.1 hk ▸ hlt
      · exact List.mem_singleton.1 hk ▸ hat
  rw [← hone, ← takable_append, List.singleton_append]

/-- Taking a tree needs it to wait at a later index, and leaves nothing there. -/
theorem take_eq_ok_iff : take parent j waiting = .ok (t, waiting') ↔
    parent < j ∧ treeAt? waiting j = some t ∧ waiting' = clear waiting [j] := by
  unfold take
  split
  · next hout =>
    constructor
    · intro h
      cases h
    · rintro ⟨hlt, hat, -⟩
      have hsize := lt_size_of_treeAt? hat
      omega
  · next hin =>
    have hlt : parent < j := by omega
    unfold treeAt?
    split
    · next u hu =>
      rw [hu, Option.join_some, Except.ok.injEq, Prod.mk.injEq, Option.some.injEq]
      constructor
      · rintro ⟨rfl, rfl⟩
        exact ⟨hlt, rfl, rfl⟩
      · rintro ⟨-, rfl, rfl⟩
        exact ⟨rfl, rfl⟩
    · next hnone =>
      constructor
      · intro h
        cases h
      · rintro ⟨-, hat, -⟩
        exact absurd (Option.join_eq_some_iff.1 hat) (hnone t)

end Waiting

/-! ### One entry -/

section Entry

variable {g : Grammar} {tree : Nat → Tree} {parent : Nat} {waiting waiting' : Waiting}

/-- Whatever waits is the tree of its index. -/
def Holds (waiting : Waiting) (tree : Nat → Tree) : Prop :=
  ∀ j t, treeAt? waiting j = some t → t = tree j

theorem Holds.clear (h : Holds waiting tree) (js : List Nat) : Holds (clear waiting js) tree := by
  intro j t ht
  rw [treeAt?_clear] at ht
  split at ht
  · cases ht
  · exact h j t ht

/-- The values of a field are bound to those they stand for, if these have the type of the field
and the trees among them can be taken. -/
theorem bindValues_eq_ok_iff {f : Field} {vs : List (Value Nat)} {bound : List (Value Tree)}
    (h : Holds waiting tree) :
    bindValues (g.isPrimitive f.typeName) f parent vs waiting = .ok (bound, waiting') ↔
      bound = vs.map (Value.map tree) ∧ (∀ v ∈ bound, v.HasType g f.typeName) ∧
        Takable waiting tree parent (vs.filterMap Value.tree?) ∧
          waiting' = clear waiting (vs.filterMap Value.tree?) := by
  -- `Holds` is what makes the left side determine `bound`: whatever is taken from an index is the
  -- tree of that index. It has to survive each taking, hence `waiting` is free.
  induction vs generalizing waiting waiting' bound with
  | nil =>
    rw [bindValues, Except.ok.injEq, Prod.mk.injEq]
    constructor
    · rintro ⟨rfl, rfl⟩
      exact ⟨rfl, fun v hv => absurd hv List.not_mem_nil, takable_nil, rfl⟩
    · rintro ⟨rfl, -, -, rfl⟩
      exact ⟨rfl, rfl⟩
  | cons v vs ih =>
    cases v with
    | token text =>
      rw [bindValues]
      cases hprim : g.isPrimitive f.typeName with
      | false =>
        constructor
        · intro h
          cases h
        · rintro ⟨rfl, htypes, -⟩
          have htype := htypes (.token text) List.mem_cons_self
          exact absurd (hprim.symm.trans htype) Bool.false_ne_true
      | true =>
        rw [hprim] at ih
        simp only [if_true, bind_eq_ok_iff, Prod.exists, ih h]
        constructor
        · rintro ⟨rest, w, ⟨rfl, htypes, htake, rfl⟩, hok⟩
          obtain ⟨rfl, rfl⟩ := Prod.mk.inj (Except.ok.inj hok)
          exact ⟨rfl, List.forall_mem_cons.2 ⟨hprim, htypes⟩, htake, rfl⟩
        · rintro ⟨rfl, htypes, htake, rfl⟩
          exact ⟨_, _, ⟨rfl, (List.forall_mem_cons.1 htypes).2, htake, rfl⟩, rfl⟩
    | child j =>
      rw [bindValues, Value.children_cons, takable_cons, clear_cons]
      cases hprim : g.isPrimitive f.typeName with
      | true =>
        constructor
        · intro h
          cases h
        · rintro ⟨rfl, htypes, -⟩
          have htype := htypes (.child (tree j)) List.mem_cons_self
          exact absurd (htype.1.symm.trans hprim) Bool.false_ne_true
      | false =>
        rw [hprim] at ih
        simp only [Bool.false_eq_true, if_false, bind_eq_ok_iff, Prod.exists, take_eq_ok_iff]
        constructor
        · rintro ⟨t, _, ⟨hlt, hat, rfl⟩, hok⟩
          -- What waits at `j` is `tree j`. Next comes the check of its type.
          obtain rfl := h j t hat
          split at hok
          · next htype =>
            obtain ⟨⟨rest, w⟩, hrest, hok⟩ := bind_eq_ok_iff.1 hok
            obtain ⟨rfl, htypes, htake, rfl⟩ := (ih (h.clear [j])).1 hrest
            obtain ⟨rfl, rfl⟩ := Prod.mk.inj (Except.ok.inj hok)
            exact ⟨rfl, List.forall_mem_cons.2 ⟨⟨hprim, htype⟩, htypes⟩, ⟨⟨hlt, hat⟩, htake⟩, rfl⟩
          · cases hok
        · rintro ⟨rfl, htypes, ⟨⟨hlt, hat⟩, htake⟩, rfl⟩
          obtain ⟨htype, htypes⟩ := List.forall_mem_cons.1 htypes
          refine ⟨tree j, _, ⟨hlt, hat, rfl⟩, ?_⟩
          rw [if_pos htype.2]
          exact bind_eq_ok_iff.2 ⟨_, (ih (h.clear [j])).2 ⟨rfl, htypes, htake, rfl⟩, rfl⟩

/-- A slot passes its check exactly if it has as many values as its cardinality admits. -/
theorem check_eq_ok_iff {s : Slot Tree} :
    s.check = .ok () ↔ s.field.cardinality.admits s.values.length = true := by
  unfold Slot.check
  by_cases h : s.field.cardinality.admits s.values.length = true
  · rw [if_pos h]
    exact ⟨fun _ => h, fun _ => rfl⟩
  · rw [if_neg h]
    exact ⟨fun hok => (by cases hok), fun h' => absurd h' h⟩

/-- Fields are bound to cells one by one. Each takes its trees from those that the ones before it
have left, so all of them together can be taken. -/
theorem bindSlots_eq_ok_iff {pairs : List (Field × Table.Cell)} {slots : List (Slot Tree)}
    (h : Holds waiting tree) :
    bindSlots g parent pairs waiting = .ok (slots, waiting') ↔
      slots = pairs.map (fun e => ⟨e.1, e.2.values.map (Value.map tree)⟩) ∧
        (∀ s ∈ slots, s.field.cardinality.admits s.values.length = true) ∧
        (∀ s ∈ slots, ∀ v ∈ s.values, v.HasType g s.field.typeName) ∧
        Takable waiting tree parent (pairs.flatMap (·.2.refs)) ∧
          waiting' = clear waiting (pairs.flatMap (·.2.refs)) := by
  induction pairs generalizing waiting waiting' slots with
  | nil =>
    rw [bindSlots, Except.ok.injEq, Prod.mk.injEq]
    constructor
    · rintro ⟨rfl, rfl⟩
      exact ⟨rfl, fun s hs => absurd hs List.not_mem_nil, fun s hs => absurd hs List.not_mem_nil,
        takable_nil, rfl⟩
    · rintro ⟨rfl, -, -, -, rfl⟩
      exact ⟨rfl, rfl⟩
  | cons e pairs ih =>
    obtain ⟨f, cell⟩ := e
    rw [bindSlots, List.flatMap_cons, takable_append, clear_append]
    -- First the values of this field, then its count, then the other fields with what still waits.
    simp only [bind_eq_ok_iff, Prod.exists, bindValues_eq_ok_iff h]
    constructor
    · rintro ⟨_, _, ⟨rfl, htypes, htake, rfl⟩, _, hcheck, rest, w, hrest, hok⟩
      obtain ⟨rfl, hcounts, hvalues, htakes, rfl⟩ := (ih (h.clear _)).1 hrest
      obtain ⟨rfl, rfl⟩ := Prod.mk.inj (Except.ok.inj hok)
      exact ⟨rfl, List.forall_mem_cons.2 ⟨check_eq_ok_iff.1 hcheck, hcounts⟩,
        List.forall_mem_cons.2 ⟨htypes, hvalues⟩, ⟨htake, htakes⟩, rfl⟩
    · rintro ⟨rfl, hcounts, hvalues, ⟨htake, htakes⟩, rfl⟩
      obtain ⟨hcount, hcounts⟩ := List.forall_mem_cons.1 hcounts
      obtain ⟨htypes, hvalues⟩ := List.forall_mem_cons.1 hvalues
      exact ⟨_, _, ⟨rfl, htypes, htake, rfl⟩, (), check_eq_ok_iff.2 hcount, _, _,
        (ih (h.clear _)).2 ⟨rfl, hcounts, hvalues, htakes, rfl⟩, rfl⟩

theorem flatMap_refs_zip {fs : List Field} {cells : List Table.Cell}
    (h : fs.length = cells.length) :
    (fs.zip cells).flatMap (·.2.refs) = cells.flatMap Table.Cell.refs := by
  have hsnd : (fs.zip cells).map Prod.snd = cells := List.map_snd_zip (Nat.le_of_eq h.symm)
  rw [← congrArg (List.flatMap Table.Cell.refs) hsnd, List.flatMap_map]

/-- Slots put together from fields and cells are those that have the fields and whose names and
values are in the cells. -/
theorem slots_eq_iff {fs : List Field} {cells : List Table.Cell} {slots : List (Slot Tree)}
    (hnames : fs.map Field.name = cells.map Table.Cell.name) :
    slots = (fs.zip cells).map (fun e => ⟨e.1, e.2.values.map (Value.map tree)⟩) ↔
      slots.map Slot.field = fs ∧
        cells.map (fun c => (c.name, c.values.map (Value.map tree))) =
          slots.map (fun s => (s.field.name, s.values)) := by
  induction fs generalizing cells slots with
  | nil =>
    obtain rfl : cells = [] := List.map_eq_nil_iff.1 hnames.symm
    rw [List.zip_nil_left, List.map_nil, List.map_nil, List.map_eq_nil_iff]
    exact ⟨fun h => ⟨h, by rw [h, List.map_nil]⟩, And.left⟩
  | cons f fs ih =>
    obtain _ | ⟨cell, cells⟩ := cells
    · cases hnames
    · obtain ⟨hname, hnames⟩ := List.cons.inj hnames
      obtain _ | ⟨s, slots⟩ := slots
      · constructor
        · intro h
          cases h
        · rintro ⟨h, -⟩
          cases h
      · obtain ⟨field, values⟩ := s
        simp only [List.zip_cons_cons, List.map_cons, List.cons.injEq, Slot.mk.injEq,
          Prod.mk.injEq, ih hnames, ← hname]
        constructor
        · rintro ⟨⟨rfl, rfl⟩, hfields, hcells⟩
          exact ⟨⟨rfl, hfields⟩, ⟨rfl, rfl⟩, hcells⟩
        · rintro ⟨⟨rfl, hfields⟩, ⟨-, rfl⟩, hcells⟩
          exact ⟨⟨rfl, rfl⟩, hfields, hcells⟩

/-- **Binding one entry.** It succeeds exactly with a tree that the entry describes and that fits
the grammar, if the trees it refers to can be taken. -/
theorem bindEntry_eq_ok_iff {e : Table.Entry} {t : Tree} (h : Holds waiting tree) :
    bindEntry g parent e waiting = .ok (t, waiting') ↔
      e.Describes tree t ∧ t.TypedAt g ∧ Takable waiting tree parent e.refs ∧
        waiting' = clear waiting e.refs := by
  unfold bindEntry
  simp only [bind_eq_ok_iff, Grammar.production_eq_ok_iff]
  constructor
  · rintro ⟨p, ⟨hp, hname⟩, hok⟩
    split at hok
    · cases hok
    · next hnames =>
      -- The cells have the names of the fields, in the same order, so they can be zipped.
      rw [firstDifference?_eq_none_iff] at hnames
      have hlen : p.fields.length = e.cells.length := by
        simpa using congrArg List.length hnames
      obtain ⟨⟨slots, w⟩, hslots, hok⟩ := bind_eq_ok_iff.1 hok
      obtain ⟨rfl, rfl⟩ := Prod.mk.inj (Except.ok.inj hok)
      obtain ⟨hmade, hcounts, hvalues, htake, rfl⟩ := (bindSlots_eq_ok_iff h).1 hslots
      obtain ⟨hfields, hcells⟩ := (slots_eq_iff hnames).1 hmade
      rw [flatMap_refs_zip hlen] at htake ⊢
      exact ⟨⟨hname.symm, hcells⟩, ⟨⟨hp, hfields⟩, hcounts, hvalues⟩, htake, rfl⟩
  · rintro ⟨hdesc, htyped, htake, rfl⟩
    obtain ⟨p, slots⟩ := t
    have hfields : slots.map Slot.field = p.fields := htyped.fields
    have hnames : p.fields.map Field.name = e.cells.map Table.Cell.name := by
      have hfst := congrArg (List.map Prod.fst) hdesc.cells
      rw [List.map_map, List.map_map] at hfst
      rw [← hfields, List.map_map]
      exact hfst.symm
    have hlen : p.fields.length = e.cells.length := by
      simpa using congrArg List.length hnames
    refine ⟨p, ⟨htyped.mem, hdesc.name.symm⟩, ?_⟩
    rw [firstDifference?_eq_none_iff.2 hnames]
    refine bind_eq_ok_iff.2 ⟨(slots, clear waiting e.refs), (bindSlots_eq_ok_iff h).2 ?_, rfl⟩
    rw [flatMap_refs_zip hlen]
    exact ⟨(slots_eq_iff hnames).2 ⟨hfields, hdesc.cells⟩, htyped.counts, htyped.values, htake, rfl⟩

end Entry

/-! ### The loop -/

/-- The entries from the index `k` on describe trees that fit the grammar, and they refer to later
indices, none of them twice. -/
structure BoundFrom (g : Grammar) (tree : Nat → Tree) (k : Nat) (done : List Table.Entry) :
    Prop where
  entry : ∀ e i, (e, i) ∈ done.zipIdx k → e.Describes tree (tree i) ∧ (tree i).TypedAt g
  forward : ∀ e i, (e, i) ∈ done.zipIdx k → ∀ j ∈ e.refs, i < j
  /-- No tree has been taken twice. -/
  nodup : (Table.refs done).Nodup
  /-- No reference goes past the end. -/
  lt : ∀ j ∈ Table.refs done, j < k + done.length

/-- The trees that wait after the entries from the index `k` on have been bound: those of the
entries that none of these refers to. -/
structure Waits (tree : Nat → Tree) (k : Nat) (done : List Table.Entry) (waiting : Waiting) :
    Prop where
  size : waiting.size = k + done.length
  /-- A tree waits exactly at the indices that have been bound and not been taken. -/
  at_iff : ∀ j t, treeAt? waiting j = some t ↔
    (k ≤ j ∧ j < k + done.length) ∧ j ∉ Table.refs done ∧ t = tree j

section Loop

variable {g : Grammar} {tree tree' : Nat → Tree} {k : Nat} {e : Table.Entry}
  {done : List Table.Entry} {waiting waiting' : Waiting}

/-- Whatever waits belongs to the family. -/
theorem Waits.holds (h : Waits tree k done waiting) : Holds waiting tree :=
  fun j t ht => ((h.at_iff j t).1 ht).2.2

/-- Only the trees from `k` on matter for what waits. -/
theorem Waits.congr (h : Waits tree k done waiting) (heq : ∀ j, k ≤ j → tree j = tree' j) :
    Waits tree' k done waiting := by
  refine ⟨h.size, fun j t => (h.at_iff j t).trans ?_⟩
  refine and_congr_right fun hj => and_congr_right fun _ => ?_
  rw [heq j hj.1]

/-- Nothing but the family of trees decides which trees wait. -/
theorem Waits.unique (h : Waits tree k done waiting) (h' : Waits tree k done waiting') :
    waiting = waiting' := by
  -- Both arrays hold the same tree, or none, at each index below their common size.
  have hat : ∀ j, treeAt? waiting j = treeAt? waiting' j := by
    intro j
    refine Option.ext fun t => ?_
    rw [h.at_iff, h'.at_iff]
  refine Array.ext (h.size.trans h'.size.symm) fun j hj hj' => ?_
  have hj := hat j
  simpa [treeAt?, *] using hj

/-- The trees that an entry refers to can be taken exactly if the references are new and go to
later entries. -/
theorem Waits.takable_iff {js : List Nat} (h : Waits tree (k + 1) done waiting) :
    Takable waiting tree k js ↔
      js.Nodup ∧ ∀ j ∈ js, k < j ∧ j < k + 1 + done.length ∧ j ∉ Table.refs done := by
  constructor
  · intro ht
    refine ⟨ht.nodup, fun j hj => ?_⟩
    obtain ⟨hrange, hnew, -⟩ := (h.at_iff j _).1 (ht.waits j hj)
    exact ⟨ht.later j hj, hrange.2, hnew⟩
  · rintro ⟨hnodup, hjs⟩
    refine ⟨hnodup, fun j hj => (hjs j hj).1, fun j hj => (h.at_iff j _).2 ?_⟩
    obtain ⟨hlt, hsize, hnew⟩ := hjs j hj
    exact ⟨⟨hlt, hsize⟩, hnew, rfl⟩

/-- A reference goes to an index after that of the first entry. -/
theorem BoundFrom.lt_of_mem_refs (h : BoundFrom g tree k done) {j : Nat}
    (hj : j ∈ Table.refs done) : k < j := by
  obtain ⟨e, he, hj⟩ := List.mem_flatMap.1 hj
  obtain ⟨i, hi, rfl⟩ := List.getElem_of_mem he
  have hmem : (done[i], k + i) ∈ done.zipIdx k :=
    List.mk_add_mem_zipIdx_iff_getElem?.2 (List.getElem?_eq_getElem hi)
  have hlt := h.forward _ _ hmem j hj
  omega

/-- **Binding one entry, seen from the waiting trees.** It takes what the entry refers to and adds
its own tree. -/
theorem Waits.step (h : Waits tree (k + 1) done waiting) (hb : BoundFrom g tree (k + 1) done)
    (ht : Takable waiting tree k e.refs) :
    Waits tree k (e :: done) ((clear waiting e.refs).setIfInBounds k (some (tree k))) := by
  have hsize : (clear waiting e.refs).size = k + 1 + done.length := size_clear.trans h.size
  refine ⟨?_, fun j t => ?_⟩
  · rw [Array.size_setIfInBounds, hsize, List.length_cons]
    omega
  rw [treeAt?_set _ (by omega), treeAt?_clear, Table.refs_cons, List.mem_append, List.length_cons]
  by_cases hjk : j = k
  · -- Neither the entry nor one after it refers to the index of the entry.
    have hnew : ¬(j ∈ e.refs ∨ j ∈ Table.refs done) := by
      rintro (hj | hj)
      · have := ht.later j hj
        omega
      · have := hb.lt_of_mem_refs hj
        omega
    rw [if_pos hjk, Option.some.injEq, hjk]
    exact ⟨fun heq => ⟨⟨Nat.le_refl k, by omega⟩, hjk ▸ hnew, heq.symm⟩, fun heq => heq.2.2.symm⟩
  · rw [if_neg hjk]
    by_cases hj : j ∈ e.refs
    · rw [if_pos hj]
      constructor
      · intro hat
        cases hat
      · rintro ⟨-, hnot, -⟩
        exact absurd (Or.inl hj) hnot
    · rw [if_neg hj, h.at_iff]
      constructor
      · rintro ⟨⟨hge, hlt⟩, hnot, rfl⟩
        exact ⟨⟨by omega, by omega⟩, not_or.2 ⟨hj, hnot⟩, rfl⟩
      · rintro ⟨⟨hge, hlt⟩, hnot, rfl⟩
        exact ⟨⟨by omega, by omega⟩, (not_or.1 hnot).2, rfl⟩

/-- **Binding one entry, seen from the entries.** If the tree of the entry is described by it and
fits the grammar, and its children could be taken, the entry joins those that are bound. -/
theorem BoundFrom.cons (hb : BoundFrom g tree (k + 1) done) (h : Waits tree (k + 1) done waiting)
    (hdesc : e.Describes tree (tree k)) (htyped : (tree k).TypedAt g)
    (ht : Takable waiting tree k e.refs) : BoundFrom g tree k (e :: done) := by
  -- What can be taken is waiting, so no entry after this one refers to it.
  obtain ⟨hnodup, hrefs⟩ := h.takable_iff.1 ht
  refine ⟨fun e' i hi => ?_, fun e' i hi => ?_, ?_, fun j hj => ?_⟩
  · rcases List.mem_cons.1 (List.zipIdx_cons ▸ hi) with heq | hi
    · obtain ⟨rfl, rfl⟩ := Prod.mk.inj heq
      exact ⟨hdesc, htyped⟩
    · exact hb.entry e' i hi
  · rcases List.mem_cons.1 (List.zipIdx_cons ▸ hi) with heq | hi
    · obtain ⟨rfl, rfl⟩ := Prod.mk.inj heq
      exact fun j hj => (hrefs j hj).1
    · exact hb.forward e' i hi
  · rw [Table.refs_cons]
    exact List.nodup_append'.2 ⟨hnodup, hb.nodup, fun j hj hj' => (hrefs j hj).2.2 hj'⟩
  · rw [Table.refs_cons] at hj
    rw [List.length_cons]
    rcases List.mem_append.1 hj with hj | hj
    · have := (hrefs j hj).2.1
      omega
    · have := hb.lt j hj
      omega

/-- What has been bound does not depend on earlier entries. -/
theorem BoundFrom.tail (h : BoundFrom g tree k (e :: done)) : BoundFrom g tree (k + 1) done := by
  refine ⟨fun e' i hi => ?_, fun e' i hi => ?_, ?_, fun j hj => ?_⟩
  · exact h.entry e' i (List.zipIdx_cons ▸ List.mem_cons_of_mem _ hi)
  · exact h.forward e' i (List.zipIdx_cons ▸ List.mem_cons_of_mem _ hi)
  · exact (List.nodup_append'.1 (Table.refs_cons e done ▸ h.nodup)).2.1
  · have := h.lt j (Table.refs_cons e done ▸ List.mem_append_right _ hj)
    rw [List.length_cons] at this
    omega

/-- Leaving out more than one entry, from the first on. -/
theorem BoundFrom.drop {front : List Table.Entry} (h : BoundFrom g tree k (front ++ done)) :
    BoundFrom g tree (k + front.length) done := by
  induction front generalizing k with
  | nil => exact h
  | cons e front ih =>
    rw [List.length_cons, Nat.add_comm front.length, ← Nat.add_assoc]
    exact ih h.tail

/-- The trees that the first entry refers to can be taken once the later entries are bound. -/
theorem BoundFrom.takable (h : BoundFrom g tree k (e :: done))
    (hw : Waits tree (k + 1) done waiting) : Takable waiting tree k e.refs := by
  obtain ⟨hnodup, -, hdisjoint⟩ := List.nodup_append'.1 (Table.refs_cons e done ▸ h.nodup)
  refine hw.takable_iff.2 ⟨hnodup, fun j hj => ⟨?_, ?_, hdisjoint hj⟩⟩
  · exact h.forward e k (List.zipIdx_cons ▸ List.mem_cons_self) j hj
  · have := h.lt j (Table.refs_cons e done ▸ List.mem_append_left _ hj)
    rw [List.length_cons] at this
    omega

/-- Only the trees from `k` on matter for what has been bound, since references go forward. -/
theorem BoundFrom.congr (h : BoundFrom g tree k done) (heq : ∀ j, k ≤ j → tree j = tree' j) :
    BoundFrom g tree' k done := by
  refine ⟨fun e i hi => ?_, h.forward, h.nodup, h.lt⟩
  have hki : k ≤ i := (List.mem_zipIdx hi).1
  obtain ⟨hdesc, htyped⟩ := h.entry e i hi
  rw [← heq i hki]
  refine ⟨hdesc.congr fun j hj => heq j ?_, htyped⟩
  have := h.forward e i hi j hj
  omega

/-- **Binding all entries.** The loop succeeds exactly if the trees of the later entries can be
extended to a family for all entries, and then the trees wait that no entry refers to. -/
theorem bindEntries_eq_ok_iff {front : List Table.Entry} (hw : Waits tree front.length done waiting)
    (hb : BoundFrom g tree front.length done) :
    bindEntries g front.zipIdx.reverse waiting = .ok waiting' ↔
      ∃ tree' : Nat → Tree, (∀ j, front.length ≤ j → tree j = tree' j) ∧
        BoundFrom g tree' 0 (front ++ done) ∧ Waits tree' 0 (front ++ done) waiting' := by
  -- The induction is on the entries still to be bound, from the last one. Both directions carry the
  -- same invariant; they differ in where the family comes from. Forwards it is extended by the tree
  -- that was bound, backwards it is given and decides what is bound.
  induction front using List.reverseRecOn generalizing tree done waiting with
  | nil =>
    rw [List.zipIdx_nil, List.reverse_nil, bindEntries, Except.ok.injEq]
    constructor
    · rintro rfl
      exact ⟨tree, fun _ _ => rfl, hb, hw⟩
    · rintro ⟨tree', heq, -, hw'⟩
      exact (hw.congr heq).unique hw'
  | append_singleton front e ih =>
    rw [List.length_append, List.length_singleton] at hw hb ⊢
    rw [List.zipIdx_append, List.reverse_append, List.append_assoc, List.singleton_append]
    simp only [List.zipIdx_singleton, List.reverse_singleton, List.singleton_append, bindEntries,
      Nat.zero_add, bind_eq_ok_iff, Prod.exists, bindEntry_eq_ok_iff hw.holds]
    constructor
    · rintro ⟨t, _, ⟨hdesc, htyped, htake, rfl⟩, hrest⟩
      -- The new tree stands at the index of its entry, which nothing bound before refers to.
      obtain ⟨tree₁, heq, rfl⟩ : ∃ tree₁ : Nat → Tree,
          (∀ j, front.length + 1 ≤ j → tree j = tree₁ j) ∧ tree₁ front.length = t :=
        ⟨Function.update tree front.length t,
          fun j hj => (Function.update_of_ne (by omega) t tree).symm, Function.update_self ..⟩
      have hw₁ := hw.congr heq
      have htake₁ := hw₁.takable_iff.2 (hw.takable_iff.1 htake)
      have hdesc₁ := hdesc.congr fun j hj => heq j (htake.later j hj)
      have hb₁ := (hb.congr heq).cons hw₁ hdesc₁ htyped htake₁
      obtain ⟨tree', heq', hb', hw'⟩ := (ih (hw₁.step (hb.congr heq) htake₁) hb₁).1 hrest
      exact ⟨tree', fun j hj => (heq j hj).trans (heq' j (by omega)), hb', hw'⟩
    · rintro ⟨tree', heq, hb', hw'⟩
      have hw₁ := hw.congr heq
      -- The given family covers all entries, in particular those from `e` on.
      have hb₁ : BoundFrom g tree' front.length (e :: done) := by
        have := BoundFrom.drop hb'
        rwa [Nat.zero_add] at this
      have htake₁ := hb₁.takable hw₁
      obtain ⟨hdesc, htyped⟩ := hb₁.entry e _ (List.zipIdx_cons ▸ List.mem_cons_self)
      refine ⟨tree' front.length, _, ⟨?_, htyped, ?_, rfl⟩, ?_⟩
      · exact hdesc.congr fun j hj => (heq j (htake₁.later j hj)).symm
      · exact hw.takable_iff.2 (hw₁.takable_iff.1 htake₁)
      · exact (ih (hw₁.step hb₁.tail htake₁) hb₁).2 ⟨tree', fun _ _ => rfl, hb', hw'⟩

end Loop

/-! ### Whole tables -/

/-- The loop has come to its end with a tree exactly if this is the only one that waits, at the
index 0. -/
theorem root_eq_ok_iff {waiting : Waiting} {t : Tree} :
    root waiting.toList = .ok t ↔
      treeAt? waiting 0 = some t ∧ ∀ j, 0 < j → treeAt? waiting j = none := by
  have hat : ∀ j, treeAt? waiting j = waiting.toList[j]?.join := fun j => by
    rw [treeAt?, Array.getElem?_toList]
  simp only [hat]
  obtain _ | ⟨_ | u, rest⟩ := waiting.toList
  · constructor
    · intro h
      cases h
    · rintro ⟨h, -⟩
      cases h
  · constructor
    · intro h
      cases h
    · rintro ⟨h, -⟩
      cases h
  · rw [root]
    cases hfind : rest.findIdx? Option.isSome with
    | some i =>
      -- A tree waits somewhere after the root.
      obtain ⟨hi, hsome, -⟩ := List.findIdx?_eq_some_iff_getElem.1 hfind
      constructor
      · intro h
        cases h
      · rintro ⟨-, hnone⟩
        have hrest := hnone (i + 1) (Nat.succ_pos i)
        rw [List.getElem?_cons_succ, List.getElem?_eq_getElem hi, Option.join_some] at hrest
        rw [hrest] at hsome
        cases hsome
    | none =>
      have hrest := List.findIdx?_eq_none_iff.1 hfind
      rw [Except.ok.injEq, List.getElem?_cons_zero, Option.join_some, Option.some.injEq]
      refine ⟨fun h => ⟨h, fun j hj => ?_⟩, And.left⟩
      obtain ⟨i, rfl⟩ := Nat.exists_eq_succ_of_ne_zero (Nat.ne_of_gt hj)
      rw [List.getElem?_cons_succ]
      cases hi : rest[i]? with
      | none => rfl
      | some o => simpa using hrest o (List.mem_of_getElem? hi)

/-- For every family of trees there is an array in which the right ones wait. -/
theorem exists_waits (tree : Nat → Tree) (es : List Table.Entry) :
    ∃ waiting, Waits tree 0 es waiting := by
  refine ⟨((List.range es.length).map fun j =>
    if j ∈ Table.refs es then none else some (tree j)).toArray, by simp, fun j t => ?_⟩
  rw [treeAt?, List.getElem?_toArray, List.getElem?_map]
  by_cases hj : j < es.length
  · rw [List.getElem?_range hj, Option.map_some, Option.join_some]
    by_cases href : j ∈ Table.refs es
    · simp [href]
    · simp [href, hj, eq_comm]
  · rw [List.getElem?_eq_none (by simpa using hj)]
    simp [hj]

/-- Before the first round nothing has been bound and nothing waits. -/
theorem waits_nil (tree : Nat → Tree) (n : Nat) : Waits tree n [] (Array.replicate n none) := by
  refine ⟨by simp, fun j t => ⟨fun h => ?_, fun h => ?_⟩⟩
  · rw [treeAt?, Array.getElem?_replicate] at h
    split at h <;> cases h
  · have := h.1.2
    rw [List.length_nil] at this
    omega

theorem boundFrom_nil (g : Grammar) (tree : Nat → Tree) (n : Nat) : BoundFrom g tree n [] :=
  ⟨fun _ _ h => absurd h List.not_mem_nil, fun _ _ h => absurd h List.not_mem_nil, List.nodup_nil,
    fun _ h => absurd h List.not_mem_nil⟩

section Table

variable {g : Grammar} {tree : Nat → Tree} {table : Table}

theorem mem_zipIdx_entries {e : Table.Entry} {i : Nat} :
    (e, i) ∈ table.entries.toList.zipIdx ↔ table.entries[i]? = some e := by
  rw [List.mk_mem_zipIdx_iff_getElem?, Array.getElem?_toList]

/-- A table that describes trees that fit the grammar can be bound as a whole. -/
theorem boundFrom_of_describes (hdesc : table.Describes tree)
    (htyped : ∀ i < table.entries.size, (tree i).TypedAt g) :
    BoundFrom g tree 0 table.entries.toList := by
  refine ⟨fun e i hi => ?_, fun e i hi => ?_, ?_, fun j hj => ?_⟩
  · rw [mem_zipIdx_entries] at hi
    exact ⟨hdesc.entry i e hi, htyped i (Array.getElem?_eq_some_iff.1 hi).1⟩
  · exact hdesc.forward i e (mem_zipIdx_entries.1 hi)
  · exact hdesc.once.nodup_iff.2 List.nodup_range'
  · obtain ⟨e, he, hj⟩ := List.mem_flatMap.1 hj
    obtain ⟨i, hi, rfl⟩ := List.getElem_of_mem he
    rw [Nat.zero_add, Array.length_toList]
    exact (hdesc.refs_later i _ (by simp) j hj).2

/-- If all entries have been bound, and all but the first have been taken, the table describes the
family of trees. -/
theorem describes_of_boundFrom (hb : BoundFrom g tree 0 table.entries.toList)
    (hpos : 0 < table.entries.size)
    (hall : ∀ j, 0 < j → j < table.entries.size → j ∈ Table.refs table.entries.toList) :
    table.Describes tree ∧ ∀ i < table.entries.size, (tree i).TypedAt g := by
  refine ⟨⟨hpos, fun i e he => ?_, fun i e he => ?_, ?_⟩, fun i hi => ?_⟩
  · exact (hb.entry e i (mem_zipIdx_entries.2 he)).1
  · exact hb.forward e i (mem_zipIdx_entries.2 he)
  · refine (List.perm_ext_iff_of_nodup hb.nodup List.nodup_range').2 fun j => ?_
    rw [List.mem_range'_1]
    constructor
    · intro hj
      have hlt := hb.lt j hj
      rw [Nat.zero_add, Array.length_toList] at hlt
      have hgt := hb.lt_of_mem_refs hj
      omega
    · rintro ⟨hge, hlt⟩
      exact hall j (by omega) (by omega)
  · exact (hb.entry _ i (mem_zipIdx_entries.2 (Array.getElem?_eq_getElem hi))).2

/-- **Which tables can be bound.** A table is bound to a tree exactly if it describes a family of
trees which all fit the grammar, and the tree is that of the first entry. -/
theorem ofTable_eq_ok_iff {t : Tree} :
    ofTable g table = .ok t ↔
      ∃ tree : Nat → Tree, tree 0 = t ∧ table.Describes tree ∧
        ∀ i < table.entries.size, (tree i).TypedAt g := by
  have hlen : table.entries.toList.length = table.entries.size := Array.length_toList
  have hstart : ∀ tree, Waits tree table.entries.toList.length []
      (Array.replicate table.entries.size none) := fun tree => hlen ▸ waits_nil tree _
  unfold ofTable
  simp only [bind_eq_ok_iff, root_eq_ok_iff]
  constructor
  · rintro ⟨waiting, hloop, hroot, hrest⟩
    obtain ⟨tree, -, hb, hw⟩ :=
      (bindEntries_eq_ok_iff (hstart fun _ => t) (boundFrom_nil g _ _)).1 hloop
    rw [List.append_nil] at hb hw
    obtain ⟨⟨-, hpos⟩, -, rfl⟩ := (hw.at_iff 0 t).1 hroot
    refine ⟨tree, rfl, describes_of_boundFrom hb (by omega) fun j hj hlt => ?_⟩
    -- A tree to which no entry refers would still be waiting.
    by_contra hnot
    have hwaits := (hw.at_iff j (tree j)).2 ⟨⟨Nat.zero_le j, by omega⟩, hnot, rfl⟩
    rw [hrest j hj] at hwaits
    cases hwaits
  · rintro ⟨tree, rfl, hdesc, htyped⟩
    -- What waits in the end is known beforehand, from the family alone.
    have hb := boundFrom_of_describes hdesc htyped
    obtain ⟨waiting, hw⟩ := exists_waits tree table.entries.toList
    refine ⟨waiting, ?_, ?_, fun j hj => ?_⟩
    · refine (bindEntries_eq_ok_iff (hstart tree) (boundFrom_nil g _ _)).2
        ⟨tree, fun _ _ => rfl, ?_⟩
      rw [List.append_nil]
      exact ⟨hb, hw⟩
    · have hpos := hdesc.pos
      refine (hw.at_iff 0 _).2 ⟨⟨Nat.le_refl 0, by omega⟩, fun hmem => ?_, rfl⟩
      exact absurd (hb.lt_of_mem_refs hmem) (Nat.lt_irrefl 0)
    · cases ht : treeAt? waiting j with
      | none => rfl
      | some u =>
        -- Every index but 0 is referred to, so nothing waits there.
        obtain ⟨⟨-, hlt⟩, hnot, -⟩ := (hw.at_iff j u).1 ht
        refine absurd ?_ hnot
        rw [hdesc.once.mem_iff, List.mem_range'_1]
        omega

end Table

/-- A tree that was bound is well typed. Every entry has been checked against the grammar, and every
node of the tree is that of an entry. -/
theorem wellTyped_of_ofTable {g : Grammar} {table : Table} {t : Tree}
    (h : ofTable g table = .ok t) : t.WellTyped g := by
  obtain ⟨tree, rfl, hdesc, htyped⟩ := ofTable_eq_ok_iff.1 h
  exact hdesc.all_of_forall htyped 0 hdesc.pos

/-- **A well-typed tree is bound back from its table.** What the table describes is the tree, so
there is nothing to show but that each entry has a well-typed node. -/
theorem ofTable_toTable {g : Grammar} {t : Tree} (h : t.WellTyped g) :
    ofTable g t.toTable = .ok t := by
  obtain ⟨tree, rfl, hdesc⟩ := exists_describes_toTable t
  exact ofTable_eq_ok_iff.2 ⟨tree, rfl, hdesc, fun i hi => (hdesc.all h i hi).here⟩

end Tree

end TypedSyntax
