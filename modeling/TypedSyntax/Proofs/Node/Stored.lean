import Mathlib.Data.List.Perm.Basic
import Mathlib.Data.String.Basic
import TypedSyntax.Proofs.Node.Built

/-!
# Stored nodes load back

Storing a node writes its attributes in the order of their names, not in declared order. Loading
takes them in any order and finds the place of each by its name, so what is loaded is a permutation
of the attributes with their names (`Document.exists_ofPairs`, `Node.exists_loadEntries`), and
`Node.ofAttrs_perm` puts it back in order. That needs the shape of the node: values that the
attributes would refuse, or rewrite, do not come back.

* `Node.load_save` — a well-shaped node loads back from its stored form;
* `Node.stored_form` — a built node is stored under its kind with its attributes in the order of
  their names and loads back from that, and so does a node that was loaded from any document.
-/

namespace TypedSyntax

/-! ### Records in the order of names -/

namespace Document

/-- Inserting puts in one entry and loses none. -/
theorem insert_perm (name : String) (d : Document) (es : List (String × Document)) :
    (insert name d es).Perm ((name, d) :: es) := by
  induction es with
  | nil => exact .refl _
  | cons e es ih =>
    unfold insert
    split
    · exact .refl _
    · exact (ih.cons e).trans (.swap (name, d) e es)

/-- Inserting keeps the names in ascending order. -/
theorem insert_ascending {es : List (String × Document)} (name : String) (d : Document)
    (h : es.Pairwise fun e f => e.1 ≤ f.1) :
    (insert name d es).Pairwise fun e f => e.1 ≤ f.1 := by
  induction es with
  | nil => exact List.pairwise_singleton _ _
  | cons e es ih =>
    obtain ⟨hhead, htail⟩ := List.pairwise_cons.1 h
    unfold insert
    by_cases hle : name ≤ e.1
    · -- It stops here, in front of names that are no less than the first of them.
      rw [if_pos hle]
      refine List.pairwise_cons.2 ⟨fun f hf => ?_, h⟩
      rcases List.mem_cons.1 hf with rfl | hf
      · exact hle
      · exact hle.trans (hhead f hf)
    · rw [if_neg hle]
      refine List.pairwise_cons.2 ⟨fun f hf => ?_, ih htail⟩
      rcases List.mem_cons.1 ((insert_perm name d es).mem_iff.1 hf) with rfl | hf
      · exact (lt_of_not_ge hle).le
      · exact hhead f hf

/-- A record has the documents it is made of, in the order of their names. -/
theorem exists_ofPairs {pairs : List (String × Document)} (hnodup : (pairs.map Prod.fst).Nodup) :
    ∃ entries, ofPairs pairs = .record entries ∧ entries.Perm pairs ∧
      entries.Pairwise fun e f => e.1 < f.1 := by
  have hsorted : ∀ ps : List (String × Document),
      (ps.foldr (fun p es => insert p.1 p.2 es) []).Perm ps ∧
        (ps.foldr (fun p es => insert p.1 p.2 es) []).Pairwise fun e f => e.1 ≤ f.1 := by
    intro ps
    induction ps with
    | nil => exact ⟨.refl _, .nil⟩
    | cons p ps ih =>
      rw [List.foldr_cons]
      exact ⟨(insert_perm _ _ _).trans (ih.1.cons p), insert_ascending _ _ ih.2⟩
  obtain ⟨hperm, hle⟩ := hsorted pairs
  refine ⟨_, rfl, hperm, ?_⟩
  -- No name occurs twice, so the names go up strictly.
  rw [← (hperm.map Prod.fst).nodup_iff, List.Nodup, List.pairwise_map] at hnodup
  exact (hle.and hnodup).imp fun h => lt_of_le_of_ne h.1 h.2

end Document

namespace Node

/-! ### Values -/

theorem saveAttrs_eq_map (as : List (Attr Node)) : saveAttrs as = as.map saveAttr := by
  induction as with
  | nil => rfl
  | cons a as ih => rw [saveAttrs, ih, List.map_cons]

mutual

/-- A value loads back if its nodes do. That they do is a hypothesis here, so that the induction on
the nodes can come later, where it is known that the nodes are well shaped. -/
theorem loadAttr_saveAttr :
    ∀ a : Attr Node, (∀ m ∈ a.nodes, load m.save = .ok m) → loadAttr (saveAttr a) = .ok a
  | .none, _ => by rw [saveAttr, loadAttr]
  | .text s, _ => by rw [saveAttr, loadAttr]
  | .node m, h => by
    have hm : load m.save = .ok m := h m (by simp [Attr.nodes])
    rw [saveAttr, loadAttr, hm]
    rfl
  | .list items, h => by
    have hitems := loadItems_saveAttrs items (by simpa [Attr.nodes] using h)
    rw [saveAttr, loadAttr, hitems]
    rfl

/-- The same for the values of a list. -/
theorem loadItems_saveAttrs :
    ∀ as : List (Attr Node), (∀ m ∈ Attr.nodesOfList as, load m.save = .ok m) →
      loadItems (saveAttrs as) = .ok as
  | [], _ => by rw [saveAttrs, loadItems]
  | a :: as, h => by
    rw [Attr.nodesOfList, List.forall_mem_append] at h
    rw [saveAttrs, loadItems, loadAttr_saveAttr a h.1, loadItems_saveAttrs as h.2]
    rfl

end

/-! ### Named values -/

/-- Entries load one by one, each under its own name. -/
theorem loadEntries_eq_ok_iff {es : List (String × Document)}
    {attrs : List (String × Attr Node)} : loadEntries es = .ok attrs ↔
      List.Forall₂ (fun e p => p.1 = e.1 ∧ loadAttr e.2 = .ok p.2) es attrs := by
  induction es generalizing attrs with
  | nil =>
    rw [loadEntries, List.forall₂_nil_left_iff, Except.ok.injEq]
    exact eq_comm
  | cons e es ih =>
    obtain ⟨name, d⟩ := e
    rw [loadEntries, bind_eq_ok_iff, List.forall₂_cons_left_iff]
    constructor
    · rintro ⟨value, hvalue, h⟩
      obtain ⟨values, hvalues, h⟩ := bind_eq_ok_iff.1 h
      exact ⟨(name, value), values, ⟨rfl, hvalue⟩, ih.1 hvalues, (Except.ok.inj h).symm⟩
    · rintro ⟨⟨_, value⟩, values, ⟨rfl, hvalue⟩, hvalues, rfl⟩
      exact ⟨value, hvalue, bind_eq_ok_iff.2 ⟨values, ih.2 hvalues, rfl⟩⟩

/-- The saved forms of named values load as the named values, in whatever order they come. -/
theorem exists_loadEntries {named : List (String × Attr Node)} {entries : List (String × Document)}
    (hperm : entries.Perm (named.map fun e => (e.1, saveAttr e.2)))
    (hload : ∀ e ∈ named, loadAttr (saveAttr e.2) = .ok e.2) :
    ∃ loaded, loadEntries entries = .ok loaded ∧ loaded.Perm named := by
  -- In the order of `named` they do, and the relation is carried along the permutation.
  have hsaved : List.Forall₂ (fun e p => p.1 = e.1 ∧ loadAttr e.2 = .ok p.2)
      (named.map fun e => (e.1, saveAttr e.2)) named :=
    List.forall₂_map_left_iff.2 (List.forall₂_same.2 fun e he => ⟨rfl, hload e he⟩)
  obtain ⟨loaded, hloaded, hperm⟩ := List.perm_comp_forall₂ hperm hsaved
  exact ⟨loaded, loadEntries_eq_ok_iff.2 hloaded, hperm⟩

/-- The stored form of a node: its attributes, in the order of their names, and its kind. No two
attributes of a kind share a name, so no entry takes the place of another one. -/
theorem ShapedAt.exists_save {n : Node} (h : n.ShapedAt) :
    ∃ entries, n.save = .record [("attrs", .record entries), ("kind", .text n.kind.name)] ∧
      entries.Perm (n.namedAttrs.map fun e => (e.1, saveAttr e.2)) ∧
      entries.Pairwise fun e f => e.1 < f.1 := by
  obtain ⟨kind, attrs⟩ := n
  have hlen : kind.attrNames.length = attrs.length := (List.length_map _).trans h.length_eq
  have hnodup : ((kind.attrNames.zip (saveAttrs attrs)).map Prod.fst).Nodup := by
    rw [saveAttrs_eq_map, List.map_fst_zip (by rw [List.length_map, hlen])]
    exact kind.nodup_attrNames
  obtain ⟨entries, hrecord, hperm, hascending⟩ := Document.exists_ofPairs hnodup
  refine ⟨entries, ?_, ?_, hascending⟩
  · rw [save, hrecord]
  · rw [saveAttrs_eq_map, List.zip_map_right] at hperm
    exact hperm

/-! ### Order -/

mutual

/-- The stored form of a value is in order if those of its nodes are. -/
theorem ordered_saveAttr :
    ∀ a : Attr Node, (∀ m ∈ a.nodes, m.save.Ordered) → (saveAttr a).Ordered
  | .none, _ => .text _
  | .text s, _ => .record (List.pairwise_singleton ..) (List.forall_mem_singleton.2 (.text s))
  | .node m, h => by
    have hm : m.save.Ordered := h m (by simp [Attr.nodes])
    exact .record (List.pairwise_singleton ..) (List.forall_mem_singleton.2 hm)
  | .list items, h => by
    have hitems := ordered_saveAttrs items (by simpa [Attr.nodes] using h)
    exact .record (List.pairwise_singleton ..) (List.forall_mem_singleton.2 (.list hitems))

/-- The same for the values of a list. -/
theorem ordered_saveAttrs :
    ∀ as : List (Attr Node), (∀ m ∈ Attr.nodesOfList as, m.save.Ordered) →
      ∀ d ∈ saveAttrs as, d.Ordered
  | [], _ => nofun
  | a :: as, h => by
    rw [Attr.nodesOfList, List.forall_mem_append] at h
    exact List.forall_mem_cons.2 ⟨ordered_saveAttr a h.1, ordered_saveAttrs as h.2⟩

end

/-- The stored form of a well-shaped node is in order, down to the last record inside it. -/
theorem WellShaped.ordered_save {n : Node} (h : n.WellShaped) : n.save.Ordered := by
  induction h with
  | @intro n here _ ih =>
    obtain ⟨entries, hsave, hperm, hascending⟩ := here.exists_save
    have hvalues : ∀ e ∈ entries, e.2.Ordered := by
      intro e he
      obtain ⟨⟨name, a⟩, hmem, rfl⟩ := List.mem_map.1 (hperm.mem_iff.1 he)
      refine ordered_saveAttr a fun m hm => ih m ?_
      exact mem_children.2 ⟨a, (List.of_mem_zip hmem).2, hm⟩
    rw [hsave]
    refine .record (List.pairwise_pair.2 (show "attrs" < "kind" by decide)) ?_
    exact List.forall_mem_cons.2 ⟨.record hascending hvalues,
      List.forall_mem_singleton.2 (.text _)⟩

/-! ### Loading -/

/-- The stored form of a node is read as its kind and its attributes. -/
theorem loadRecord_stored {kind : String} {entries : List (String × Document)}
    {loaded : List (String × Attr Node)} (h : loadEntries entries = .ok loaded) :
    loadRecord {} [("attrs", .record entries), ("kind", .text kind)] = .ok ⟨some kind, loaded⟩ := by
  rw [loadRecord, if_pos rfl, loadAttrs, h]
  change loadRecord { attrs := loaded } [("kind", .text kind)] = _
  rw [loadRecord, if_neg (by decide), if_pos rfl]
  change loadRecord ⟨some kind, loaded⟩ [] = _
  rw [loadRecord]

/-- **A well-shaped node loads back from its stored form.** The stored form has the attributes in
another order than the kind declares, and this is why a node cannot be loaded place by place. -/
theorem load_save {n : Node} (h : n.WellShaped) : load n.save = .ok n := by
  -- The children load back, so the values do; and the values make the node again.
  induction h with
  | @intro n here _ ih =>
    obtain ⟨entries, hsave, hperm, -⟩ := here.exists_save
    have hvalues : ∀ e ∈ n.namedAttrs, loadAttr (saveAttr e.2) = .ok e.2 := by
      intro e he
      refine loadAttr_saveAttr e.2 fun m hm => ih m ?_
      exact mem_children.2 ⟨e.2, (List.of_mem_zip he).2, hm⟩
    obtain ⟨loaded, hloaded, hloadedPerm⟩ := exists_loadEntries hperm hvalues
    -- The values come in the order of their names and find their places again.
    have hnode : ofAttrs n.kind loaded = .ok n := by
      obtain ⟨kind, attrs⟩ := n
      exact ofAttrs_perm here hloadedPerm
    rw [hsave, load, loadRecord_stored hloaded]
    change StoredNode.build ⟨some n.kind.name, loaded⟩ = .ok n
    simp only [StoredNode.build, Kind.ofName?_name, hnode]
    rfl

/-- **Stored nodes load back.** A built node and every node inside it is stored as a record with the
name of its kind and a record of its attributes, each under its name, in ascending order; and the
node loads back from that. So does every node that was loaded from a document, however the document
spelled it. -/
theorem stored_form :
    (∀ n : Node, n.Built →
      (∀ m ∈ n.walk, ∃ entries,
        m.save = .record [("attrs", .record entries), ("kind", .text m.kind.name)] ∧
        entries.Perm (m.namedAttrs.map fun e => (e.1, saveAttr e.2)) ∧
        entries.Pairwise fun e f => e.1 < f.1) ∧
      load n.save = .ok n) ∧
    ∀ (d : Document) (n : Node), load d = .ok n → load n.save = .ok n := by
  refine ⟨fun n hn => ⟨?_, load_save hn.wellShaped⟩, fun d n hd => ?_⟩
  · rw [forall_mem_walk_iff]
    exact hn.wellShaped.imp fun m hm => ShapedAt.exists_save hm
  · exact load_save (Built.load hd).wellShaped

/-- A block with a sum in it. The operator of the sum is declared before its operands, and stored
between them. A document that has it where it is declared, and gives both nodes as lists, loads as
the same block. -/
theorem stored_form_block :
    let sum : Node := .binaryOp "+" (.id "a") (.id "b")
    let operand (s : String) : Document := .record [("Node", .record [("attrs", .record [("name",
      .record [("Text", .text s)])]), ("kind", .text "ID")])]
    let operator : Document := .record [("Text", .text "+")]
    let stored := [("left", operand "a"), ("op", operator), ("right", operand "b")]
    let spelled := [("op", operator), ("left", operand "a"), ("right", operand "b")]
    let document : Document := .list [.text "Compound", .record [("block_items", .record [("List",
      .list [.record [("Node", .list [.text "BinaryOp", .record spelled])]])])]]
    (Node.compound [sum]).Built ∧ sum ∈ (Node.compound [sum]).walk ∧
      sum.save = .record [("attrs", .record stored), ("kind", .text "BinaryOp")] ∧
      stored.Perm (sum.namedAttrs.map fun e => (e.1, saveAttr e.2)) ∧
      stored.Pairwise (fun e f => e.1 < f.1) ∧
      load (Node.compound [sum]).save = .ok (.compound [sum]) ∧
      load document = .ok (.compound [sum]) ∧
      load (Node.compound [sum]).save = load document := by
  intro sum operand operator stored spelled document
  have hbuilt : (Node.compound [sum]).Built :=
    .compound (List.forall_mem_singleton.2 (.binaryOp "+" (.id "a") (.id "b")))
  have hmem : sum ∈ (Node.compound [sum]).walk := by
    refine walk_eq _ ▸ .tail _ (List.mem_flatMap.2 ⟨sum, .head _, ?_⟩)
    exact walk_eq sum ▸ .head _
  obtain ⟨hforms, hback⟩ := stored_form.1 _ hbuilt
  obtain ⟨entries, hsave, hperm, hascending⟩ := hforms sum hmem
  have hstored : sum.save = .record [("attrs", .record stored), ("kind", .text "BinaryOp")] := rfl
  obtain ⟨rfl, -⟩ : stored = entries ∧ _ := by simpa using hstored.symm.trans hsave
  have hload : load document = .ok (.compound [sum]) := rfl
  exact ⟨hbuilt, hmem, hstored, hperm, hascending, hback, hload,
    (stored_form.2 _ _ hload).trans hload.symm⟩

end Node

end TypedSyntax
