import TypedSyntax.Document.Node
import TypedSyntax.Node.Builders
import TypedSyntax.Proofs.Node.Shape

/-!
# The nodes that can be built

`Node.Built` says which nodes a program can have in hands: the empty nodes of all kinds, what
`Node.ofAttrs`, `Node.set` and the builders make of values whose nodes are built, and what is loaded
from documents. The values themselves are free: lists may be nested, and an attribute may hold a
text where another program would want a node.

Every step keeps the shape of nodes, so built nodes are well shaped. Conversely a well-shaped node
can be built in one go from the values it holds. So the two are the same (`Node.built_iff`).
-/

namespace TypedSyntax

namespace Node

/-- The nodes that the operations on nodes can make. -/
inductive Built : Node → Prop where
  | ofKind (kind : Kind) : Built (.ofKind kind)
  | ofAttrs {kind : Kind} {attrs : List (String × Attr Node)} {n : Node}
      (values : ∀ e ∈ attrs, ∀ m ∈ e.2.nodes, Built m) (made : Node.ofAttrs kind attrs = .ok n) :
      Built n
  | set {n n' : Node} {name : String} {value : Attr Node} (old : Built n)
      (new : ∀ m ∈ value.nodes, Built m) (made : n.set name value = .ok n') : Built n'
  | load {d : Document} {n : Node} (made : Node.load d = .ok n) : Built n
  | id (name : String) : Built (.id name)
  | constant (type value : String) : Built (.constant type value)
  | binaryOp (op : String) {left right : Node} (l : Built left) (r : Built right) :
      Built (.binaryOp op left right)
  | unaryOp (op : String) {expr : Node} (e : Built expr) : Built (.unaryOp op expr)
  | assignment (op : String) {lvalue rvalue : Node} (l : Built lvalue) (r : Built rvalue) :
      Built (.assignment op lvalue rvalue)
  | identifierType (names : List String) : Built (.identifierType names)
  | typeDecl (declname : Option String) (quals : List String) {type : Node} (t : Built type) :
      Built (.typeDecl declname quals type)
  | decl (name : Option String) {type : Node} {init : Option Node} (t : Built type)
      (i : ∀ m ∈ init, Built m) : Built (.decl name type init)
  | compound {items : List Node} (each : ∀ m ∈ items, Built m) : Built (.compound items)
  | returnStmt {expr : Option Node} (e : ∀ m ∈ expr, Built m) : Built (.returnStmt expr)
  | funcCall {name : Node} {args : Option Node} (f : Built name) (a : ∀ m ∈ args, Built m) :
      Built (.funcCall name args)
  | exprList {exprs : List Node} (each : ∀ m ∈ exprs, Built m) : Built (.exprList exprs)
  | file {ext : List Node} (each : ∀ m ∈ ext, Built m) : Built (.file ext)

/-! ### Single steps -/

/-- An empty node has an empty value for each attribute, and no nodes in it. -/
theorem ofKind_wellShaped (kind : Kind) : (ofKind kind).WellShaped := by
  refine .intro ?_ fun m hm => ?_
  · refine List.forall₂_map_right_iff.2 (List.forall₂_same.2 fun spec _ => ?_)
    exact Attr.empty_hasShape spec
  · obtain ⟨a, ha, hm⟩ := mem_children.1 hm
    obtain ⟨spec, -, rfl⟩ := List.mem_map.1 ha
    rw [Attr.nodes_empty] at hm
    exact absurd hm List.not_mem_nil

/-- Values under names make a well-shaped node, whatever order they come in. -/
theorem ofAttrs_wellShaped {kind : Kind} {attrs : List (String × Attr Node)} {n : Node}
    (hattrs : ∀ e ∈ attrs, ∀ m ∈ e.2.nodes, m.WellShaped) (h : ofAttrs kind attrs = .ok n) :
    n.WellShaped := by
  obtain ⟨-, hshape, hchildren⟩ := ofAttrs_shape h
  refine .intro hshape fun m hm => ?_
  obtain ⟨e, he, hm⟩ := hchildren m hm
  exact hattrs e he m hm

/-- A node inside the new one was inside the old one, or comes with the new value. -/
theorem set_wellShaped {n n' : Node} {name : String} {value : Attr Node} (hn : n.WellShaped)
    (hvalue : ∀ m ∈ value.nodes, m.WellShaped) (h : n.set name value = .ok n') :
    n'.WellShaped := by
  obtain ⟨hshape, hchildren⟩ := set_shape h hn.here
  refine .intro hshape fun m hm => ?_
  rcases hchildren m hm with hm | hm
  · exact hn.deeper m hm
  · exact hvalue m hm

/-- What has been read of a node is put together by `Node.ofAttrs`. -/
theorem build_wellShaped {stored : StoredNode} {n : Node}
    (hattrs : ∀ e ∈ stored.attrs, ∀ m ∈ e.2.nodes, m.WellShaped) (h : stored.build = .ok n) :
    n.WellShaped := by
  unfold StoredNode.build at h
  split at h
  · exact absurd h nofun
  · split at h
    · exact absurd h nofun
    · exact ofAttrs_wellShaped hattrs (mapError_eq_ok_iff.1 h)

/-! ### Loading -/

/-- A node that is loaded is built from what has been read of it: the entries of a record, or the
members of a list. -/
theorem load_eq_ok {d : Document} {n : Node} (h : load d = .ok n) :
    ∃ stored : StoredNode, stored.build = .ok n ∧
      ((∃ entries, d = .record entries ∧ loadRecord {} entries = .ok stored) ∨
        stored.attrs = [] ∨
        ∃ kind attrs rest, d = .list (.text kind :: attrs :: rest) ∧
          loadAttrs attrs = .ok stored.attrs) := by
  unfold load at h
  split at h
  case h_1 entries =>
    obtain ⟨stored, hstored, h⟩ := bind_eq_ok_iff.1 h
    exact ⟨stored, h, .inl ⟨entries, rfl, hstored⟩⟩
  case h_2 kind => exact ⟨_, h, .inr (.inl rfl)⟩
  case h_3 kind attrs rest =>
    obtain ⟨loaded, hloaded, h⟩ := bind_eq_ok_iff.1 h
    split at h
    · exact ⟨_, h, .inr (.inr ⟨kind, attrs, rest, rfl, hloaded⟩)⟩
    · exact absurd h nofun
  case h_4 => exact absurd h nofun

/-- A value that is loaded has no nodes, or those of the document inside it. -/
theorem loadAttr_eq_ok {d : Document} {a : Attr Node} (h : loadAttr d = .ok a) :
    a.nodes = [] ∨ (∃ inner n, d = .record [("Node", inner)] ∧ load inner = .ok n ∧ a = .node n) ∨
      ∃ items as, d = .record [("List", .list items)] ∧ loadItems items = .ok as ∧
        a = .list as := by
  unfold loadAttr at h
  split at h
  case h_4 inner =>
    obtain ⟨n, hn, h⟩ := bind_eq_ok_iff.1 h
    exact .inr (.inl ⟨inner, n, rfl, hn, (Except.ok.inj h).symm⟩)
  case h_5 items =>
    obtain ⟨as, has, h⟩ := bind_eq_ok_iff.1 h
    exact .inr (.inr ⟨items, as, rfl, has, (Except.ok.inj h).symm⟩)
  case h_6 => exact absurd h nofun
  all_goals
    obtain rfl := Except.ok.inj h
    exact .inl (by simp [Attr.nodes])

mutual

/-- A node that is loaded is well shaped. Everything inside it is loaded before it, so the induction
is on the document, with one lemma for each of the loading functions. -/
theorem load_wellShaped {d : Document} {n : Node} (h : load d = .ok n) : n.WellShaped := by
  obtain ⟨stored, hbuild, ⟨entries, hd, hentries⟩ | hnone | ⟨kind, attrs, rest, hd, hattrs⟩⟩ :=
    load_eq_ok h
  · exact build_wellShaped (loadRecord_wellShaped hentries (by simp)) hbuild
  · exact build_wellShaped (by simp [hnone]) hbuild
  · exact build_wellShaped (loadAttrs_wellShaped hattrs) hbuild
termination_by sizeOf d
decreasing_by all_goals (subst hd; decreasing_tactic)

/-- The attributes of a node are the entries of a record. -/
theorem loadAttrs_wellShaped {d : Document} {attrs : List (String × Attr Node)}
    (h : loadAttrs d = .ok attrs) : ∀ e ∈ attrs, ∀ m ∈ e.2.nodes, m.WellShaped := by
  cases d with
  | record entries =>
    rw [loadAttrs] at h
    exact loadEntries_wellShaped h
  | _ => simp [loadAttrs] at h
termination_by sizeOf d

/-- Every entry has a value, which is loaded on its own. -/
theorem loadEntries_wellShaped {entries : List (String × Document)}
    {attrs : List (String × Attr Node)} (h : loadEntries entries = .ok attrs) :
    ∀ e ∈ attrs, ∀ m ∈ e.2.nodes, m.WellShaped := by
  match entries with
  | [] =>
    rw [loadEntries] at h
    obtain rfl := Except.ok.inj h
    exact nofun
  | (name, d) :: rest =>
    rw [loadEntries] at h
    obtain ⟨value, hvalue, h⟩ := bind_eq_ok_iff.1 h
    obtain ⟨values, hvalues, h⟩ := bind_eq_ok_iff.1 h
    obtain rfl := Except.ok.inj h
    exact List.forall_mem_cons.2 ⟨loadAttr_wellShaped hvalue, loadEntries_wellShaped hvalues⟩
termination_by sizeOf entries

/-- The nodes of a value are those that are loaded for it. -/
theorem loadAttr_wellShaped {d : Document} {a : Attr Node} (h : loadAttr d = .ok a) :
    ∀ m ∈ a.nodes, m.WellShaped := by
  obtain hnone | ⟨inner, n, hd, hn, rfl⟩ | ⟨items, as, hd, has, rfl⟩ := loadAttr_eq_ok h
  · simp [hnone]
  · simpa [Attr.nodes] using load_wellShaped hn
  · rw [Attr.nodes]
    exact loadItems_wellShaped has
termination_by sizeOf d
decreasing_by all_goals (subst hd; decreasing_tactic)

/-- The items of a list are loaded as values are. -/
theorem loadItems_wellShaped {items : List Document} {as : List (Attr Node)}
    (h : loadItems items = .ok as) : ∀ m ∈ Attr.nodesOfList as, m.WellShaped := by
  match items with
  | [] =>
    rw [loadItems] at h
    obtain rfl := Except.ok.inj h
    simp [Attr.nodesOfList]
  | d :: rest =>
    rw [loadItems] at h
    obtain ⟨value, hvalue, h⟩ := bind_eq_ok_iff.1 h
    obtain ⟨values, hvalues, h⟩ := bind_eq_ok_iff.1 h
    obtain rfl := Except.ok.inj h
    rw [Attr.nodesOfList, List.forall_mem_append]
    exact ⟨loadAttr_wellShaped hvalue, loadItems_wellShaped hvalues⟩
termination_by sizeOf items

/-- The attributes read from a record are those of its entry for them, if it has one, and otherwise
those there were before. -/
theorem loadRecord_wellShaped {stored out : StoredNode} {entries : List (String × Document)}
    (h : loadRecord stored entries = .ok out)
    (hattrs : ∀ e ∈ stored.attrs, ∀ m ∈ e.2.nodes, m.WellShaped) :
    ∀ e ∈ out.attrs, ∀ m ∈ e.2.nodes, m.WellShaped := by
  match entries with
  | [] =>
    rw [loadRecord] at h
    exact Except.ok.inj h ▸ hattrs
  | (name, d) :: rest =>
    rw [loadRecord] at h
    -- The entry has the attributes, or the kind, or is none of the two and is passed over.
    split at h
    · obtain ⟨loaded, hloaded, h⟩ := bind_eq_ok_iff.1 h
      exact loadRecord_wellShaped h (loadAttrs_wellShaped hloaded)
    · split at h
      · split at h
        · exact absurd h nofun
        · exact loadRecord_wellShaped h hattrs
      · exact loadRecord_wellShaped h hattrs
termination_by sizeOf entries

end

/-! ### Built nodes are the well-shaped ones -/

/-- A value written out for a builder is well shaped if all its nodes are. -/
theorem wellShaped_of_attrs {kind : Kind} {attrs : List (Attr Node)}
    (hshape : List.Forall₂ Attr.HasShape kind.attrs attrs)
    (hnodes : ∀ a ∈ attrs, ∀ m ∈ a.nodes, m.WellShaped) : (Node.mk kind attrs).WellShaped := by
  refine .intro hshape fun m hm => ?_
  obtain ⟨a, ha, hm⟩ := mem_children.1 hm
  exact hnodes a ha m hm

/-- Texts have no nodes in them. -/
theorem nodes_texts (texts : List String) : (Attr.texts texts).nodes = [] := by
  rw [Attr.texts, Attr.nodes]
  induction texts with
  | nil => rfl
  | cons text texts ih => rw [List.map_cons, Attr.nodesOfList, ih, Attr.nodes, List.nil_append]

/-- A list of nodes has just these in it. -/
theorem nodes_ofNodes (nodes : List Node) : (Attr.ofNodes nodes).nodes = nodes := by
  rw [Attr.ofNodes, Attr.nodes]
  induction nodes with
  | nil => rfl
  | cons n nodes ih => rw [List.map_cons, Attr.nodesOfList, ih, Attr.nodes, List.singleton_append]

theorem nodes_ofText? (text : Option String) : (Attr.ofText? text).nodes = [] := by
  cases text <;> simp [Attr.ofText?, Attr.nodes]

theorem nodes_ofNode? (node : Option Node) : (Attr.ofNode? node).nodes = node.toList := by
  cases node <;> simp [Attr.ofNode?, Attr.nodes]

theorem hasShape_ofText? {spec : AttrSpec} (text : Option String) (h : spec.isList = false) :
    (Attr.ofText? text).HasShape spec := by
  cases text <;> exact h.symm

theorem hasShape_ofNode? {spec : AttrSpec} (node : Option Node) (h : spec.isList = false) :
    (Attr.ofNode? node).HasShape spec := by
  cases node <;> exact h.symm

/-- **Built nodes are well shaped.** Every way to make a node either checks the values that it is
given or puts them where they belong itself. -/
theorem Built.wellShaped {n : Node} (h : n.Built) : n.WellShaped := by
  -- One case for each way to make a node. The builders make theirs outright, so their cases check
  -- the shape of each value against the declared attribute.
  induction h with
  | ofKind kind => exact ofKind_wellShaped kind
  | ofAttrs _ made ih => exact ofAttrs_wellShaped ih made
  | set _ _ made old new => exact set_wellShaped old new made
  | load made => exact load_wellShaped made
  | id | constant =>
    refine wellShaped_of_attrs (by repeat constructor) ?_
    simp [Attr.nodes]
  | binaryOp _ _ _ l r | assignment _ _ _ l r =>
    refine wellShaped_of_attrs (by repeat constructor) ?_
    simpa [Attr.nodes] using ⟨l, r⟩
  | unaryOp _ _ e =>
    refine wellShaped_of_attrs (by repeat constructor) ?_
    simpa [Attr.nodes] using e
  | identifierType =>
    refine wellShaped_of_attrs (by repeat constructor) ?_
    simp [nodes_texts]
  | typeDecl declname _ _ t =>
    refine wellShaped_of_attrs (.cons (hasShape_ofText? declname rfl) (by repeat constructor)) ?_
    simpa [Attr.nodes, nodes_texts, nodes_ofText?] using t
  | @decl name type init _ _ t i =>
    refine wellShaped_of_attrs (.cons (hasShape_ofText? name rfl) (.cons rfl (.cons rfl (.cons rfl
      (.cons rfl (.cons (hasShape_ofNode? init rfl) (by repeat constructor))))))) ?_
    simpa [Attr.nodes, Attr.nodesOfList, nodes_ofText?, nodes_ofNode?] using ⟨t, i⟩
  | compound _ each | exprList _ each | file _ each =>
    refine wellShaped_of_attrs (by repeat constructor) ?_
    simpa [nodes_ofNodes] using each
  | @returnStmt expr _ e =>
    refine wellShaped_of_attrs (.cons (hasShape_ofNode? expr rfl) .nil) ?_
    simpa [nodes_ofNode?] using e
  | @funcCall name args _ _ f a =>
    refine wellShaped_of_attrs (.cons rfl (.cons (hasShape_ofNode? args rfl) .nil)) ?_
    simpa [Attr.nodes, nodes_ofNode?] using ⟨f, a⟩

/-- **A well-shaped node can be built**, from the values it holds and their names. -/
theorem WellShaped.built {n : Node} (h : n.WellShaped) : n.Built := by
  induction h with
  | @intro n here _ ih =>
    obtain ⟨kind, attrs⟩ := n
    -- The values go in under the names of the attributes, in declared order.
    refine .ofAttrs (fun e he m hm => ?_) (ofAttrs_zip here)
    exact ih m (mem_children.2 ⟨e.2, (List.of_mem_zip he).2, hm⟩)

theorem built_iff {n : Node} : n.Built ↔ n.WellShaped :=
  ⟨Built.wellShaped, WellShaped.built⟩

end Node

end TypedSyntax
