import TypedSyntax.Proofs.Converter.Typing

/-!
# The outline of an encoded tree

Encoding keeps the nodes and their order, and makes one tree of every text. A walk over a node goes
by the attributes that its kind declares, and reading a tree in pre-order goes by the fields of its
production, so this is a statement about two orders.

* `Converter.outlines_of_encode` — over a plain grammar, the trees of composite type, read in
  pre-order, carry the names of the kinds on the walk, and there is one more tree for each text;
* `Converter.encoding_keeps_outline` — the same over the bundled grammar, with the size of the tree.

What is compared are two lists, of trees that were read and of nodes that were visited. `Outlines`
says that they fit together, and it is kept when lists are put one after the other, so that it
carries from values to slots and from slots to nodes.
-/

namespace TypedSyntax

/-- The texts in the values of a node, left to right, lists flattened. Those of its children are not
among them. -/
def Node.texts (n : Node) : List String :=
  Attr.textsInList n.attrs

/-- The constructors of a type in a tree, read in pre-order. -/
def Tree.namesOfType (typeName : String) (t : Tree) : List String :=
  (t.preorder.filter (·.production.typeName == typeName)).map Tree.name

/-! ### Lists that fit together -/

/-- Some trees fit the nodes that they were made of: those of the type `root` are named like the
kinds of the nodes, in order, and there is one more tree for each text of a node, and for each text
in `texts`. -/
structure Outlines (root : String) (trees : List Tree) (nodes : List Node) (texts : List String) :
    Prop where
  names : (trees.filter (·.production.typeName == root)).map Tree.name = nodes.map (·.kind.name)
  length : trees.length = nodes.length + (nodes.flatMap Node.texts).length + texts.length

namespace Outlines

variable {root : String} {t : Tree} {trees trees' : List Tree} {n : Node} {nodes nodes' : List Node}
  {texts texts' : List String}

theorem nil : Outlines root [] [] [] :=
  ⟨rfl, rfl⟩

theorem append (h : Outlines root trees nodes texts) (h' : Outlines root trees' nodes' texts') :
    Outlines root (trees ++ trees') (nodes ++ nodes') (texts ++ texts') := by
  refine ⟨?_, ?_⟩
  · rw [List.filter_append, List.map_append, List.map_append, h.names, h'.names]
  · have hlen := h.length
    have hlen' := h'.length
    simp only [List.length_append, List.flatMap_append]
    omega

/-- What is put together from parts that fit together, part by part, fits together. -/
theorem flatMap {α β : Type} {R : α → β → Prop} {as : List α} {bs : List β}
    {treesOf : β → List Tree} {nodesOf : α → List Node} {textsOf : α → List String}
    (h : List.Forall₂ R as bs)
    (hR : ∀ a ∈ as, ∀ b, R a b → Outlines root (treesOf b) (nodesOf a) (textsOf a)) :
    Outlines root (bs.flatMap treesOf) (as.flatMap nodesOf) (as.flatMap textsOf) := by
  induction h with
  | nil => exact nil
  | cons hab _ ih =>
    rw [List.forall_mem_cons] at hR
    rw [List.flatMap_cons, List.flatMap_cons, List.flatMap_cons]
    exact (hR.1 _ hab).append (ih hR.2)

/-- A tree of another type, with nothing below it, is there for one text. -/
theorem text (hroot : t.production.typeName ≠ root) (hsub : t.subtrees = []) (text : String) :
    Outlines root t.preorder [] [text] := by
  rw [t.preorder_eq, hsub, List.flatMap_nil]
  refine ⟨?_, rfl⟩
  rw [List.filter_singleton, beq_false_of_ne hroot]
  rfl

/-- A tree of the type `root` is there for a node, if what is below it fits what is below the node
and the texts of the node. -/
theorem node (hroot : t.production.typeName = root) (hname : t.name = n.kind.name)
    (h : Outlines root (t.subtrees.flatMap Tree.preorder) (n.children.flatMap Node.walk) n.texts) :
    Outlines root t.preorder n.walk [] := by
  rw [t.preorder_eq, n.walk_eq]
  refine ⟨?_, ?_⟩
  · rw [List.filter_cons, if_pos (beq_iff_eq.2 hroot), List.map_cons, List.map_cons, hname, h.names]
  · -- The texts of the node were counted by themselves so far, and now count as those of a node on
    -- the walk.
    have hlen := h.length
    simp only [List.length_cons, List.flatMap_cons, List.length_append, List.length_nil]
    omega

end Outlines

/-! ### One value -/

namespace Converter

variable {g : Grammar} {c : Converter} {root : String} {f : Field} {kind : FieldKind} {t : Tree}

theorem subtrees_leafTree (c : Converter) (leaf : LeafKind) (text : String) :
    (c.leafTree leaf text).subtrees = [] := by
  unfold leafTree
  cases c.model with
  | none => exact subtrees_of_tokens _ _ [text]
  | some model => exact subtrees_of_tokens _ _ (model text)

/-- Over a plain grammar, the fields that do not hold nodes have other types than the nodes. -/
theorem typeName_ne_root (hp : c.grammar.Plain root) (hkind : c.fieldKind? f.typeName = some kind)
    (h : kind ≠ .composite) : f.typeName ≠ root := by
  intro hroot
  have hcomposite := fieldKind?_eq_composite_iff.2 ((hp.composite _).2 hroot)
  exact h (Option.some.inj (hkind.symm.trans hcomposite))

/-- Over a plain grammar, the tree that is written for a value fits the nodes and texts in the
value. -/
theorem Writes.outlines (hp : c.grammar.Plain root) {a : Attr Node}
    (hkind : c.fieldKind? f.typeName = some kind)
    (ih : ∀ m ∈ a.nodes, ∀ t, c.encode m = .ok t → Outlines root t.preorder m.walk [])
    (h : c.Writes f kind a (.child t)) :
    Outlines root t.preorder (a.nodes.flatMap Node.walk) a.textsIn := by
  cases h with
  | @composite n _ h =>
    have hn := ih n (by simp [Attr.nodes]) t h
    rw [Attr.nodes, Attr.textsIn, List.flatMap_singleton]
    exact hn
  | leaf leaf text =>
    have hroot := typeName_ne_root hp hkind (by simp)
    rw [(fieldKind?_eq_leaf_iff.1 hkind).2, ← leafTree_typeName hp leaf text] at hroot
    rw [Attr.nodes, Attr.textsIn]
    exact .text hroot (subtrees_leafTree c leaf text) text
  | @terminal text constructor q h hq hname =>
    have hroot := typeName_ne_root hp hkind (by simp)
    -- The constructor has a spelling in the group of the field, so its production has no fields.
    have hspelled := Terminal.token?_of_constructor? h
    rw [← hname] at hspelled
    obtain ⟨htype, hfields⟩ := hp.of_token? hq hspelled
    have hsub : (Tree.ofProduction q).subtrees = [] := by
      rw [Tree.subtrees, Tree.ofProduction, hfields, List.map_nil, List.flatMap_nil]
    rw [Attr.nodes, Attr.textsIn]
    exact .text (htype ▸ hroot) hsub text

/-! ### One slot -/

/-- Over a plain grammar, the trees in a slot fit the nodes and texts in the value that the slot was
written for. -/
theorem WritesSlot.outlines (hp : c.grammar.Plain root) {a : Attr Node} {s : Slot Tree}
    (ih : ∀ m ∈ a.nodes, ∀ t, c.encode m = .ok t → Outlines root t.preorder m.walk [])
    (h : c.WritesSlot a s) :
    Outlines root (s.subtrees.flatMap Tree.preorder) (a.nodes.flatMap Node.walk) a.textsIn := by
  obtain ⟨kind, items, hkind, hholds, hwrites⟩ := h
  have hsub : s.subtrees = s.values.flatMap fun v => v.tree?.toList :=
    List.filterMap_eq_flatMap_toList _ _
  rw [hsub, hholds.eq_flatMap.1, hholds.eq_flatMap.2, List.flatMap_assoc, List.flatMap_assoc]
  refine .flatMap hwrites fun i hi v hv => ?_
  obtain ⟨u, rfl⟩ := hv.exists_child
  show Outlines root ([u].flatMap Tree.preorder) (i.nodes.flatMap Node.walk) i.textsIn
  rw [List.flatMap_singleton]
  exact hv.outlines hp hkind fun m hm => ih m ((hholds.subset hi).1 hm)

/-! ### Whole nodes -/

/-- **Over a plain grammar, a tree has the outline of the node it was encoded from.** -/
theorem outlines_of_encode (hp : g.Plain root) (hg : c.grammar = g) {n : Node}
    (hn : n.WellShaped) (h : c.encode n = .ok t) : Outlines root t.preorder n.walk [] := by
  subst hg
  induction hn generalizing t with
  | @intro n here deeper ih =>
    obtain ⟨p, hproduction⟩ := exists_production_of_encode h
    have ha := Grammar.agrees_of_production? hp.verify hp.ofName?_leaf hproduction
    have hroot := (wellTyped_of_encode hp rfl (.intro here deeper) h).2
    obtain ⟨rfl, hfields, hslots⟩ := (encode_eq_ok_iff hproduction ha here).1 h
    refine .node hroot (Grammar.production?_eq_some_iff.1 hproduction).2 ?_
    -- Attributes and slots stand side by side, and both walks go through them in order.
    rw [Tree.subtrees, Node.children, Node.texts, Attr.nodesOfList_eq_flatMap,
      Attr.textsInList_eq_flatMap, List.flatMap_assoc, List.flatMap_assoc]
    refine .flatMap hslots fun a ha s hs => ?_
    exact hs.outlines hp fun m hm t => ih m (Node.mem_children.2 ⟨a, ha, hm⟩)

/-- **Encoding over the bundled grammar keeps the outline.** Whatever model cuts the texts, the
`EXPR` trees in pre-order are named like the kinds of the nodes on the walk, and the tree has one
node for each of these nodes and one for each text that they hold. -/
theorem encoding_keeps_outline (hg : cGrammar = .ok g) (hc : c.grammar = g) {n : Node}
    (hn : n.Built) (h : c.encode n = .ok t) :
    t.namesOfType "EXPR" = n.walk.map (·.kind.name) ∧
      t.size = n.size + (n.walk.flatMap Node.texts).length := by
  have houtlines := outlines_of_encode (cGrammar_plain hg) hc hn.wellShaped h
  refine ⟨houtlines.names, ?_⟩
  calc t.size = t.preorder.length := t.length_preorder.symm
    _ = n.size + (n.walk.flatMap Node.texts).length := houtlines.length

/-- A declaration with a list of qualifiers, a type of two words and an initial value. -/
def declaration : Node :=
  .decl (some "x") (.typeDecl (some "x") ["const"] (.identifierType ["unsigned", "int"]))
    (some (.constant "int" "1"))

/-- The tree of the declaration has one node for each of the four nodes and one for each of the
seven texts, two of which stand in one list. -/
theorem encoding_keeps_outline_declaration :
    ∃ t, (Converter.ofC (some noisy) {}).encode declaration = .ok t ∧
      t.namesOfType "EXPR" = ["Decl", "TypeDecl", "IdentifierType", "Constant"] ∧ t.size = 11 := by
  have hbuilt : declaration.Built := by
    refine .decl _ (.typeDecl _ _ (.identifierType _)) fun m hm => ?_
    obtain rfl := Option.mem_some_iff.1 hm
    exact .constant _ _
  have hok : ((Converter.ofC (some noisy) {}).encode declaration).isOk := by decide +kernel
  obtain ⟨t, ht⟩ := exists_ok_of_isOk hok
  obtain ⟨hnames, hsize⟩ := encoding_keeps_outline cGrammar_eq rfl hbuilt ht
  have hwalk : declaration.walk.map (·.kind.name) =
      ["Decl", "TypeDecl", "IdentifierType", "Constant"] := by
    decide +kernel
  have htexts : declaration.walk.flatMap Node.texts =
      ["x", "x", "const", "unsigned", "int", "int", "1"] := by
    decide +kernel
  have hcount : declaration.size = 4 := by
    decide +kernel
  refine ⟨t, ht, hnames.trans hwalk, ?_⟩
  rw [hsize, hcount, htexts]
  rfl

end Converter

end TypedSyntax
