import TypedSyntax.Proofs.Tree.Walk

/-!
# Well-formed tables

Which tables can be bound to a grammar is said here of the table alone, without any tree
(`Table.WellFormed`): every entry is that of a production of the grammar, with values of the right
types and in the right number, an entry refers to later entries only, and every entry but the first
is referred to exactly once. The tree of a table is what one gets by following the references from
the first entry on (`Table.Unfolds`).

* `Tree.exists_ofTable_iff` — a table can be bound exactly if it is well formed, and the tree is the
  one it unfolds to. It has one node for each entry, and it is valid.
* `Tree.ofTable_toTable_iff` — a tree is bound back from its table exactly if it is well typed.

`Tree.ofTable_eq_ok_iff` says which tables can be bound by a family of trees, one for each entry. So
there are two things to show. The family of a table that is bound consists of what the entries
unfold to (`Table.Describes.unfolds`), and the entries of a well-formed table unfold to such a
family (`Table.WellFormed.exists_describes`).
-/

namespace TypedSyntax

theorem Tree.mk_eta (t : Tree) : Tree.mk t.production t.slots = t := by
  cases t
  rfl

namespace Table

variable {g : Grammar} {table : Table} {tree : Nat → Tree} {i j : Nat} {e : Entry} {t : Tree}

/-! ### The definitions -/

/-- The production that the entry at an index names. -/
def productionAt? (g : Grammar) (table : Table) (i : Nat) : Option Production :=
  table.entries[i]?.bind fun e => g.production? e.constructor

/-- A stored value may stand in a field of a given type: a text if the type is primitive, and else
the index of an entry of that type. -/
def HasType (g : Grammar) (table : Table) (typeName : String) : Value Nat → Prop
  | .token _ => g.isPrimitive typeName = true
  | .child j => g.isPrimitive typeName = false ∧
      (table.productionAt? g j).map Production.typeName = some typeName

/-- An entry is one of a production: its cells are named like the fields, in the same order, and
each holds as many values as the cardinality of the field admits, all of the type of the field. -/
structure Entry.Instantiates (g : Grammar) (table : Table) (e : Entry) (p : Production) :
    Prop where
  names : p.fields.map Field.name = e.cells.map Cell.name
  counts : ∀ x ∈ p.fields.zip e.cells, x.1.cardinality.admits x.2.values.length = true
  values : ∀ x ∈ p.fields.zip e.cells, ∀ v ∈ x.2.values, table.HasType g x.1.typeName v

/-- A table that can be bound to a grammar. Every entry is looked at, whether or not the first one
leads to it. -/
structure WellFormed (g : Grammar) (table : Table) : Prop where
  pos : 0 < table.entries.size
  /-- Every entry names a constructor of the grammar and is one of its production. -/
  entry : ∀ (i : Nat) (e : Entry), table.entries[i]? = some e →
    ∃ p, g.production? e.constructor = some p ∧ e.Instantiates g table p
  /-- An entry refers to later entries only. -/
  forward : ∀ (i : Nat) (e : Entry), table.entries[i]? = some e →
    ∀ j ∈ e.refs, i < j ∧ j < table.entries.size
  /-- Every index from 1 on is held exactly once. -/
  once : ∀ j, 1 ≤ j → j < table.entries.size → (refs table.entries.toList).count j = 1

/-- The entry at an index unfolds to a tree: the tree of its production, in which every index stands
for what the entry at that index unfolds to. Nothing is unfolded for an entry that leads back to
itself. -/
inductive Unfolds (g : Grammar) (table : Table) : Nat → Tree → Prop where
  | intro {i : Nat} {e : Entry} {p : Production} {child : Nat → Tree}
      (entry : table.entries[i]? = some e) (production : g.production? e.constructor = some p)
      (children : ∀ j ∈ e.refs, Unfolds g table j (child j)) :
      Unfolds g table i
        ⟨p, (p.fields.zip e.cells).map fun x => ⟨x.1, x.2.values.map (Value.map child)⟩⟩

/-! ### Unfolding -/

/-- The production of an unfolded tree is the one that the entry names. -/
theorem Unfolds.productionAt? (h : table.Unfolds g i t) :
    table.productionAt? g i = some t.production := by
  cases h with
  | intro he hp _ => rw [Table.productionAt?, he, Option.bind_some, hp]

/-- Only the trees that the cells refer to matter for the slots made of them. -/
theorem slots_congr {tree' : Nat → Tree} {fs : List Field} {cells : List Cell}
    (h : ∀ j ∈ cells.flatMap Cell.refs, tree j = tree' j) :
    (fs.zip cells).map (fun x => (⟨x.1, x.2.values.map (Value.map tree)⟩ : Slot Tree)) =
      (fs.zip cells).map (fun x => ⟨x.1, x.2.values.map (Value.map tree')⟩) := by
  refine List.map_congr_left fun x hx => ?_
  have hcell : x.2 ∈ cells := (List.of_mem_zip hx).2
  rw [map_congr_of_refs fun j hj => h j (List.mem_flatMap.2 ⟨x.2, hcell, hj⟩)]

/-- An entry unfolds to one tree at most. The induction is on one of the two unfoldings, which is
finite even where the table is not known to refer forward only. -/
theorem Unfolds.unique {t' : Tree} (h : table.Unfolds g i t) (h' : table.Unfolds g i t') :
    t = t' := by
  induction h generalizing t' with
  | @intro i e p child he hp _ ih =>
    cases h' with
    | intro he' hp' hchildren' =>
      -- Both look at the same entry, under the same production.
      obtain rfl := Option.some.inj (he.symm.trans he')
      obtain rfl := Option.some.inj (hp.symm.trans hp')
      rw [slots_congr fun j hj => ih j hj (hchildren' j hj)]

/-- The cells of an entry have the names of the fields of the tree it describes. -/
theorem Entry.Describes.names (h : e.Describes tree t) (hm : t.MirrorsAt g) :
    t.production.fields.map Field.name = e.cells.map Cell.name := by
  have hfst := congrArg (List.map Prod.fst) h.cells
  rw [List.map_map, List.map_map] at hfst
  rw [← hm.fields, List.map_map]
  exact hfst.symm

/-- A tree over the grammar that an entry describes is put together from the fields of the
production and the cells of the entry. -/
theorem Entry.Describes.slots (h : e.Describes tree t) (hm : t.MirrorsAt g) :
    t.slots = (t.production.fields.zip e.cells).map
      fun x => ⟨x.1, x.2.values.map (Value.map tree)⟩ :=
  (Tree.slots_eq_iff (h.names hm)).2 ⟨hm.fields, h.cells⟩

/-- The trees that a table describes, all of them over the grammar, are those that its entries
unfold to. -/
theorem Describes.unfolds (h : table.Describes tree)
    (hm : ∀ i < table.entries.size, (tree i).MirrorsAt g) :
    ∀ i < table.entries.size, table.Unfolds g i (tree i) := by
  refine forward_induction h.refs_later fun i e he ih => ?_
  have hi : i < table.entries.size := (Array.getElem?_eq_some_iff.1 he).1
  have hdesc := h.entry i e he
  have hproduction : g.production? e.constructor = some (tree i).production := by
    rw [hdesc.name]
    exact (hm i hi).production?
  have hunfolds := Unfolds.intro he hproduction ih
  rw [← hdesc.slots (hm i hi), Tree.mk_eta] at hunfolds
  exact hunfolds

/-! ### Types of entries -/

/-- A stored value has the type of a field exactly if what it stands for has it. -/
theorem hasType_map_iff {typeName : String} {v : Value Nat}
    (h : ∀ j, v.tree? = some j → table.productionAt? g j = some (tree j).production) :
    (v.map tree).HasType g typeName ↔ table.HasType g typeName v := by
  cases v with
  | token text => rfl
  | child j =>
    rw [Value.map, Value.HasType, HasType, h j rfl, Option.map_some, Option.some.injEq]

/-- An entry is one of a production exactly if the tree that it describes fits the grammar. -/
theorem Entry.Describes.instantiates_iff (h : e.Describes tree t) (hm : t.MirrorsAt g)
    (hrefs : ∀ j ∈ e.refs, table.productionAt? g j = some (tree j).production) :
    e.Instantiates g table t.production ↔ t.TypedAt g := by
  have hslots := h.slots hm
  -- Slots and pairs of a field and a cell stand side by side, so both sides ask the same of them.
  have hcounts : (∀ s ∈ t.slots, s.field.cardinality.admits s.values.length = true) ↔
      ∀ x ∈ t.production.fields.zip e.cells,
        x.1.cardinality.admits x.2.values.length = true := by
    rw [hslots, List.forall_mem_map]
    refine forall₂_congr fun x _ => ?_
    rw [List.length_map]
  have hvalues : (∀ s ∈ t.slots, ∀ v ∈ s.values, v.HasType g s.field.typeName) ↔
      ∀ x ∈ t.production.fields.zip e.cells, ∀ v ∈ x.2.values,
        table.HasType g x.1.typeName v := by
    rw [hslots, List.forall_mem_map]
    refine forall₂_congr fun x hx => ?_
    rw [List.forall_mem_map]
    refine forall₂_congr fun v hv => hasType_map_iff fun j hj => hrefs j ?_
    have hcell : x.2 ∈ e.cells := (List.of_mem_zip hx).2
    exact List.mem_flatMap.2 ⟨x.2, hcell, List.mem_filterMap.2 ⟨v, hv, hj⟩⟩
  constructor
  · intro hi
    exact ⟨hm, hcounts.2 hi.counts, hvalues.2 hi.values⟩
  · intro ht
    exact ⟨h.names hm, hcounts.1 ht.counts, hvalues.1 ht.values⟩

/-! ### References -/

/-- That every index from 1 on occurs once, and no other index, is a matter of counting. -/
theorem perm_range_iff {js : List Nat} {n : Nat} (h : ∀ j ∈ js, 1 ≤ j ∧ j < n) :
    js.Perm (List.range' 1 (n - 1)) ↔ ∀ j, 1 ≤ j → j < n → js.count j = 1 := by
  have hrange : ∀ j, j ∈ List.range' 1 (n - 1) ↔ 1 ≤ j ∧ j < n := by
    intro j
    rw [List.mem_range'_1]
    omega
  constructor
  · intro hperm j hpos hlt
    rw [hperm.count_eq]
    exact List.count_eq_one_of_mem List.nodup_range' ((hrange j).2 ⟨hpos, hlt⟩)
  · intro hcount
    refine List.perm_iff_count.2 fun j => ?_
    by_cases hj : 1 ≤ j ∧ j < n
    · rw [hcount j hj.1 hj.2, List.count_eq_one_of_mem List.nodup_range' ((hrange j).2 hj)]
    · rw [List.count_eq_zero_of_not_mem fun hmem => hj (h j hmem),
        List.count_eq_zero_of_not_mem fun hmem => hj ((hrange j).1 hmem)]

/-- If entries refer to later entries only, every index that is held somewhere is one of them. -/
theorem bounds_of_forward
    (h : ∀ (i : Nat) (e : Entry), table.entries[i]? = some e →
      ∀ j ∈ e.refs, i < j ∧ j < table.entries.size) :
    ∀ j ∈ refs table.entries.toList, 1 ≤ j ∧ j < table.entries.size := by
  intro j hj
  obtain ⟨e, he, hj⟩ := List.mem_flatMap.1 hj
  obtain ⟨i, hi⟩ := List.mem_iff_getElem?.1 he
  rw [Array.getElem?_toList] at hi
  obtain ⟨hlt, hsize⟩ := h i e hi j hj
  exact ⟨Nat.one_le_of_lt hlt, hsize⟩

/-! ### Both directions -/

/-- A table that describes trees which all fit the grammar is well formed. -/
theorem Describes.wellFormed (h : table.Describes tree)
    (ht : ∀ i < table.entries.size, (tree i).TypedAt g) : table.WellFormed g := by
  have hunfolds := h.unfolds fun i hi => (ht i hi).toMirrorsAt
  refine ⟨h.pos, fun i e he => ?_, h.refs_later,
    (perm_range_iff (bounds_of_forward h.refs_later)).1 h.once⟩
  have hi : i < table.entries.size := (Array.getElem?_eq_some_iff.1 he).1
  have hdesc := h.entry i e he
  refine ⟨(tree i).production, ?_, ?_⟩
  · rw [hdesc.name]
    exact (ht i hi).production?
  · refine (hdesc.instantiates_iff (ht i hi).toMirrorsAt fun j hj => ?_).2 (ht i hi)
    exact (hunfolds j (h.refs_later i e he j hj).2).productionAt?

/-- Every entry of a well-formed table unfolds to a tree. -/
theorem WellFormed.exists_unfolds (h : table.WellFormed g) :
    ∀ i < table.entries.size, ∃ t, table.Unfolds g i t := by
  refine forward_induction h.forward fun i e he hchild => ?_
  obtain ⟨p, hp, -⟩ := h.entry i e he
  -- One tree for each index that the entry holds, and any tree elsewhere.
  have : Nonempty Tree := ⟨.ofProduction p⟩
  choose! child hchild using hchild
  exact ⟨_, .intro he hp hchild⟩

/-- In a well-formed table, an entry describes what it unfolds to, by the trees that the other
entries unfold to, and the tree fits the grammar. -/
theorem WellFormed.describes (h : table.WellFormed g)
    (htree : ∀ i < table.entries.size, table.Unfolds g i (tree i))
    (he : table.entries[i]? = some e) : e.Describes tree (tree i) ∧ (tree i).TypedAt g := by
  have hi : i < table.entries.size := (Array.getElem?_eq_some_iff.1 he).1
  obtain ⟨p, hp, hinst⟩ := h.entry i e he
  obtain ⟨hmem, hname⟩ := Grammar.production?_eq_some_iff.1 hp
  have hchildren : ∀ j ∈ e.refs, table.Unfolds g j (tree j) :=
    fun j hj => htree j (h.forward i e he j hj).2
  -- There is only one tree that the entry unfolds to, so it is the one made of the family.
  have heq := (htree i hi).unique (.intro he hp hchildren)
  rw [heq]
  obtain ⟨hfields, hcells⟩ := (Tree.slots_eq_iff hinst.names).1 rfl
  have hdesc : e.Describes tree ⟨p, _⟩ := ⟨hname.symm, hcells⟩
  have hm : Tree.MirrorsAt g ⟨p, _⟩ := ⟨hmem, hfields⟩
  refine ⟨hdesc, (hdesc.instantiates_iff hm fun j hj => ?_).1 hinst⟩
  exact (hchildren j hj).productionAt?

/-- **The family of a well-formed table.** The trees that its entries unfold to are described by it
and all fit the grammar. -/
theorem WellFormed.exists_describes (h : table.WellFormed g) :
    ∃ tree : Nat → Tree, table.Describes tree ∧
      ∀ i < table.entries.size, (tree i).TypedAt g := by
  obtain ⟨root, -⟩ := h.exists_unfolds 0 h.pos
  have : Nonempty Tree := ⟨root⟩
  choose! tree htree using h.exists_unfolds
  refine ⟨tree, ⟨h.pos, fun i e he => (h.describes htree he).1, fun i e he j hj => ?_, ?_⟩,
    fun i hi => (h.describes htree (Array.getElem?_eq_getElem hi)).2⟩
  · exact (h.forward i e he j hj).1
  · exact (perm_range_iff (bounds_of_forward h.forward)).2 h.once

end Table

namespace Tree

variable {g : Grammar} {table : Table}

/-! ### Binding -/

/-- **Binding accepts exactly the well-formed tables.** The tree is the one that the table unfolds
to, and no other; it has one node for each entry, and it is valid. -/
theorem exists_ofTable_iff (g : Grammar) (table : Table) :
    ((∃ t, ofTable g table = .ok t) ↔ table.WellFormed g) ∧
      ∀ t, ofTable g table = .ok t →
        (∀ u, table.Unfolds g 0 u ↔ u = t) ∧ t.size = table.entries.size ∧
          t.validate = .ok () := by
  refine ⟨⟨?_, fun h => ?_⟩, fun t ht => ?_⟩
  · rintro ⟨t, ht⟩
    obtain ⟨tree, -, hdesc, htyped⟩ := ofTable_eq_ok_iff.1 ht
    exact hdesc.wellFormed htyped
  · obtain ⟨tree, hdesc, htyped⟩ := h.exists_describes
    exact ⟨tree 0, ofTable_eq_ok_iff.2 ⟨tree, rfl, hdesc, htyped⟩⟩
  · have hwell := wellTyped_of_ofTable ht
    obtain ⟨tree, rfl, hdesc, htyped⟩ := ofTable_eq_ok_iff.1 ht
    have hunfolds := hdesc.unfolds (fun i hi => (htyped i hi).toMirrorsAt) 0 hdesc.pos
    refine ⟨fun u => ⟨fun hu => hu.unique hunfolds, ?_⟩, hdesc.size_eq, hwell.validate⟩
    rintro rfl
    exact hunfolds

/-- A grammar of pairs and texts. -/
def pairs : Grammar where
  declarations :=
    { primitives := ["TOKEN"]
      sums := [⟨"EXPR",
        [⟨"Pair", [⟨"left", "EXPR", .single⟩, ⟨"right", "EXPR", .single⟩]⟩,
         ⟨"Leaf", [⟨"text", "TOKEN", .single⟩]⟩]⟩] }
  consistent := Declarations.firstProblem?_eq_none_iff.1 (by decide +kernel)

/-- A table of a pair whose second part is stored before the first. -/
def pairTable : Table :=
  ⟨#[⟨"Pair", [⟨"left", [.child 2]⟩, ⟨"right", [.child 1]⟩]⟩,
     ⟨"Leaf", [⟨"text", [.token "b"]⟩]⟩,
     ⟨"Leaf", [⟨"text", [.token "a"]⟩]⟩]⟩

/-- The table of a pair is well formed, and its tree has three nodes. -/
theorem exists_ofTable_pairTable :
    pairTable.WellFormed pairs ∧
      ∃ t, ofTable pairs pairTable = .ok t ∧ pairTable.Unfolds pairs 0 t ∧ t.size = 3 ∧
        t.validate = .ok () := by
  have hbound : ∃ t, ofTable pairs pairTable = .ok t := ⟨_, rfl⟩
  obtain ⟨hiff, hresult⟩ := exists_ofTable_iff pairs pairTable
  refine ⟨hiff.1 hbound, ?_⟩
  obtain ⟨t, ht⟩ := hbound
  obtain ⟨hunfolds, hsize, hvalid⟩ := hresult t ht
  exact ⟨t, ht, (hunfolds t).2 rfl, hsize, hvalid⟩

/-- **A tree is bound back from its table exactly if it is well typed.** -/
theorem ofTable_toTable_iff (g : Grammar) (t : Tree) :
    ofTable g t.toTable = .ok t ↔ t.WellTyped g :=
  ⟨wellTyped_of_ofTable, ofTable_toTable⟩

end Tree

end TypedSyntax
