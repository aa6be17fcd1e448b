import TypedSyntax.CGrammar
import TypedSyntax.Proofs.Converter.Registry
import TypedSyntax.Proofs.Grammar.Sentence
import TypedSyntax.Tree.Basic

/-!
# What the bundled grammar says

The bundled grammar is a text. Here it is read once and for all: `cGrammar_eq_ok_iff` says that the
grammar exists and which declarations it has (`cDeclarations`). There is one composite type with a
production for every kind of node, the leaf types have their two productions each, and there is a
sum type for every group of terminals, with its constructors in the order of the group.

From the declarations follows what conversion relies on, by a look at each production
(`cGrammar_plain`, `cGrammar_full`).
-/

namespace TypedSyntax

/-! ### The declarations -/

namespace Field

/-- A field that holds one value. -/
def one (typeName name : String) : Field :=
  ⟨name, typeName, .single⟩

/-- A field that holds at most one value. -/
def opt (typeName name : String) : Field :=
  ⟨name, typeName, .optional⟩

/-- A field that holds any number of values. -/
def many (typeName name : String) : Field :=
  ⟨name, typeName, .multiple⟩

end Field

/-- The constructors for nodes of C. -/
def cConstructors : List Constructor :=
  [ ⟨"ArrayDecl", [.one "EXPR" "type", .opt "EXPR" "dim", .many "DIM_QUAL" "dim_quals"]⟩,
    ⟨"ArrayRef", [.one "EXPR" "name", .one "EXPR" "subscript"]⟩,
    ⟨"Assignment", [.one "ASSIGN_OPER" "op", .one "EXPR" "lvalue", .one "EXPR" "rvalue"]⟩,
    ⟨"BinaryOp", [.one "BINARY_OP" "op", .one "EXPR" "left", .one "EXPR" "right"]⟩,
    ⟨"Break", []⟩,
    ⟨"Case", [.one "EXPR" "expr", .many "EXPR" "stmts"]⟩,
    ⟨"Cast", [.one "EXPR" "to_type", .one "EXPR" "expr"]⟩,
    ⟨"Compound", [.many "EXPR" "block_items"]⟩,
    ⟨"CompoundLiteral", [.one "EXPR" "type", .one "EXPR" "init"]⟩,
    ⟨"Constant", [.one "LITERAL_TYPE" "type", .one "STR" "value"]⟩,
    ⟨"Continue", []⟩,
    ⟨"Decl", [.opt "IDENT" "name", .many "QUAL" "quals", .many "STORAGE" "storage",
      .many "FUNCSPEC" "funcspec", .one "EXPR" "type", .opt "EXPR" "init", .opt "EXPR" "bitsize"]⟩,
    ⟨"DeclList", [.many "EXPR" "decls"]⟩,
    ⟨"Default", [.many "EXPR" "stmts"]⟩,
    ⟨"DoWhile", [.one "EXPR" "cond", .one "EXPR" "stmt"]⟩,
    ⟨"EllipsisParam", []⟩,
    ⟨"EmptyStatement", []⟩,
    ⟨"Enum", [.opt "IDENT" "name", .opt "EXPR" "values"]⟩,
    ⟨"Enumerator", [.one "IDENT" "name", .opt "EXPR" "value"]⟩,
    ⟨"EnumeratorList", [.many "EXPR" "enumerators"]⟩,
    ⟨"ExprList", [.many "EXPR" "exprs"]⟩,
    ⟨"FileAST", [.many "EXPR" "ext"]⟩,
    ⟨"For", [.opt "EXPR" "init", .opt "EXPR" "cond", .opt "EXPR" "next", .one "EXPR" "stmt"]⟩,
    ⟨"FuncCall", [.one "EXPR" "name", .opt "EXPR" "args"]⟩,
    ⟨"FuncDecl", [.opt "EXPR" "args", .one "EXPR" "type"]⟩,
    ⟨"FuncDef", [.one "EXPR" "decl", .many "EXPR" "param_decls", .one "EXPR" "body"]⟩,
    ⟨"Goto", [.one "IDENT" "name"]⟩,
    ⟨"ID", [.one "IDENT" "name"]⟩,
    ⟨"IdentifierType", [.many "IDENT" "names"]⟩,
    ⟨"If", [.one "EXPR" "cond", .one "EXPR" "iftrue", .opt "EXPR" "iffalse"]⟩,
    ⟨"InitList", [.many "EXPR" "exprs"]⟩,
    ⟨"Label", [.one "IDENT" "name", .one "EXPR" "stmt"]⟩,
    ⟨"NamedInitializer", [.many "EXPR" "name", .one "EXPR" "expr"]⟩,
    ⟨"ParamList", [.many "EXPR" "params"]⟩,
    ⟨"Pragma", [.one "STR" "string"]⟩,
    ⟨"PtrDecl", [.many "QUAL" "quals", .one "EXPR" "type"]⟩,
    ⟨"Return", [.opt "EXPR" "expr"]⟩,
    ⟨"StaticAssert", [.one "EXPR" "cond", .opt "EXPR" "message"]⟩,
    ⟨"Struct", [.opt "IDENT" "name", .many "EXPR" "decls"]⟩,
    ⟨"StructRef", [.one "EXPR" "name", .one "REF_TYPE" "type", .one "EXPR" "field"]⟩,
    ⟨"Switch", [.one "EXPR" "cond", .one "EXPR" "stmt"]⟩,
    ⟨"TernaryOp", [.one "EXPR" "cond", .one "EXPR" "iftrue", .one "EXPR" "iffalse"]⟩,
    ⟨"TypeDecl", [.opt "IDENT" "declname", .many "QUAL" "quals", .one "EXPR" "type"]⟩,
    ⟨"Typedef", [.one "IDENT" "name", .many "QUAL" "quals", .many "STORAGE" "storage",
      .one "EXPR" "type"]⟩,
    ⟨"Typename", [.opt "IDENT" "name", .many "QUAL" "quals", .one "EXPR" "type"]⟩,
    ⟨"UnaryOp", [.one "UNARY_OP" "op", .one "EXPR" "expr"]⟩,
    ⟨"Union", [.opt "IDENT" "name", .many "EXPR" "decls"]⟩,
    ⟨"While", [.one "EXPR" "cond", .one "EXPR" "stmt"]⟩ ]

/-- A leaf type, with a production for a text and one for its pieces. -/
def LeafKind.sumType (leaf : LeafKind) : SumType :=
  ⟨leaf.typeName,
    [⟨leaf.tokenConstructor, [.one "TOKEN" "token"]⟩,
     ⟨leaf.subwordConstructor, [.many "TOKEN" "pieces"]⟩]⟩

/-- The sum type of a group of terminals. -/
def Terminal.Group.sumType (group : Terminal.Group) : SumType :=
  ⟨group.typeName, (group.entries.map Prod.snd).eraseDups.map (Constructor.mk · [])⟩

/-- The declarations of the bundled grammar of C. -/
def cDeclarations : Declarations where
  primitives := ["TOKEN"]
  sums :=
    ⟨"EXPR", cConstructors⟩ :: LeafKind.ident.sumType :: LeafKind.str.sumType ::
      Terminal.groups.map Terminal.Group.sumType

/-! ### Reading the text -/

/-- The declarations that a list of characters spells. -/
def Declarations.spelled? (cs : List Char) : Option Declarations :=
  ((Token.scanFrom .nothing {} cs).bind Declarations.read).toOption

/-- One line at a time, a list of lines is written as lists of characters. -/
theorem exists_characters_cons {line : String} {cs : List Char} {lines : List String}
    {P : List (List Char) → Prop} (h : line = String.ofList cs)
    (hs : ∃ css, lines = css.map String.ofList ∧ P (cs :: css)) :
    ∃ css, line :: lines = css.map String.ofList ∧ P css := by
  obtain ⟨css, rfl, hP⟩ := hs
  exact ⟨cs :: css, by rw [List.map_cons, h], hP⟩

/-- The text of the bundled grammar spells its declarations. -/
theorem spelled?_cGrammarText : Declarations.spelled? cGrammarText.toList = some cDeclarations := by
  have hlines : ∃ css : List (List Char), cGrammarLines = css.map String.ofList ∧
      Declarations.spelled? (css.flatMap (· ++ ['\n'])) = some cDeclarations := by
    -- Taking the characters out of a string is slow in the kernel. So the lines are first written
    -- as characters, which are then scanned and read by evaluation.
    unfold cGrammarLines
    repeat' apply exists_characters_cons rfl
    exact ⟨[], rfl, by decide +kernel⟩
  obtain ⟨css, hcss, h⟩ := hlines
  have htext : cGrammarText.toList = css.flatMap (· ++ ['\n']) := by
    rw [cGrammarText, String.toList_join, hcss, List.map_map, List.flatMap_map]
    refine List.flatMap_congr fun cs _ => ?_
    simp
  rw [htext, h]

/-- The bundled grammar is the one with the declarations above. Its text has been read, and what is
read makes a grammar, since declarations come with the proof that they fit together. -/
theorem cGrammar_eq_ok_iff {g : Grammar} : cGrammar = .ok g ↔ g.declarations = cDeclarations := by
  have hread : ∃ tokens, Token.scan cGrammarText = .ok tokens ∧
      Declarations.read tokens = .ok cDeclarations := by
    have h := spelled?_cGrammarText
    unfold Declarations.spelled? at h
    unfold Token.scan
    cases hs : Token.scanFrom .nothing {} cGrammarText.toList with
    | error e => rw [hs] at h; exact absurd h nofun
    | ok tokens =>
      rw [hs] at h
      refine ⟨tokens, rfl, ?_⟩
      change (Declarations.read tokens).toOption = _ at h
      cases hd : Declarations.read tokens with
      | error e => rw [hd] at h; exact absurd h nofun
      | ok d => rw [hd] at h; exact congrArg Except.ok (Option.some.inj h)
  obtain ⟨tokens, hscan, hread⟩ := hread
  rw [cGrammar, Grammar.ofText_eq_ok_iff]
  constructor
  · rintro ⟨ts, hts, hd⟩
    rw [hscan] at hts
    obtain rfl := Except.ok.inj hts
    rw [hread] at hd
    exact (Except.ok.inj hd).symm
  · intro h
    exact ⟨tokens, hscan, h ▸ hread⟩

/-- The bundled grammar of C, read. -/
def Grammar.ofC : Grammar where
  declarations := cDeclarations
  consistent := Declarations.firstProblem?_eq_none_iff.1 (by decide +kernel)

theorem cGrammar_eq : cGrammar = .ok Grammar.ofC :=
  cGrammar_eq_ok_iff.2 rfl

/-! ### What conversion relies on -/

/-- **The bundled grammar is plain.** It passes the check against the kinds of nodes, its only
composite type is `EXPR`, the leaf types have the leaf constructors and no others, a constructor
with a spelling in a group belongs to the type of that group, and no field of a node holds a text
directly. -/
theorem cGrammar_plain {g : Grammar} (hg : cGrammar = .ok g) : g.Plain "EXPR" := by
  have hd := cGrammar_eq_ok_iff.1 hg
  have hproductions : g.productions = cDeclarations.productions := by rw [Grammar.productions, hd]
  have hsums : g.sums = cDeclarations.sums := by rw [Grammar.sums, hd]
  have hprimitives : g.primitives = ["TOKEN"] := by rw [Grammar.primitives, hd]; rfl
  -- Each part is a statement about finitely many declarations, decided by evaluation.
  refine ⟨?_, fun typeName => ⟨fun h => ?_, ?_⟩, fun p hp leaf => ?_, ?_, ?_⟩
  · refine forM_eq_ok_iff.2 fun p hp => ?_
    have h : ∀ p ∈ cDeclarations.productions, p.verify.isOk := by decide +kernel
    have hok := h p (hproductions ▸ hp)
    cases hv : p.verify with
    | error e => rw [hv] at hok; exact absurd hok nofun
    | ok _ => rfl
  · obtain ⟨s, hs, rfl⟩ := Grammar.isSum_iff.1 h.isSum
    rw [hsums] at hs
    have hnames : ∀ s ∈ cDeclarations.sums, s.name = "EXPR" ∨ s.name = LeafKind.ident.typeName ∨
        s.name = LeafKind.str.typeName ∨ Terminal.isType s.name = true := by
      decide +kernel
    rcases hnames s hs with h' | h' | h' | h'
    · exact h'
    · exact absurd h' (h.not_leaf .ident)
    · exact absurd h' (h.not_leaf .str)
    · rw [h.not_terminal] at h'
      exact absurd h' nofun
  · rintro rfl
    refine ⟨Grammar.isSum_iff.2 ⟨⟨"EXPR", cConstructors⟩, hsums ▸ List.mem_cons_self, rfl⟩, ?_, ?_⟩
    · rintro (_ | _) <;> decide
    · decide
  · rw [hproductions] at hp
    revert p
    cases leaf <;> decide +kernel
  · rw [hproductions]
    decide +kernel
  · have hfields : ∀ p ∈ cDeclarations.productions, p.typeName = "EXPR" →
        ∀ f ∈ p.fields, f.typeName ∉ ["TOKEN"] := by
      decide +kernel
    intro p hp htype f hf
    rw [Bool.eq_false_iff, ne_eq, Grammar.isPrimitive_iff, hprimitives]
    exact hfields p (hproductions ▸ hp) htype f hf

/-- **The bundled grammar is full.** It has a production for every kind of node and for every
terminal, so that nothing a node may hold lacks a place in a tree. -/
theorem cGrammar_full {g : Grammar} (hg : cGrammar = .ok g) : g.Full := by
  have hsums : g.sums = cDeclarations.sums := by rw [Grammar.sums, cGrammar_eq_ok_iff.1 hg]
  refine ⟨fun kind => ?_, fun group hgroup e he => ?_⟩
  · -- The constructors for nodes are named like the kinds, one by one.
    have hnames : Kind.all.map Kind.name = cConstructors.map Constructor.name := by
      decide +kernel
    have hkind := List.mem_map_of_mem (f := Kind.name) (Kind.mem_all kind)
    rw [hnames] at hkind
    obtain ⟨constructor, hc, hname⟩ := List.mem_map.1 hkind
    refine ⟨⟨"EXPR", constructor⟩, Grammar.mem_productions.2 ⟨⟨"EXPR", cConstructors⟩, ?_⟩, hname⟩
    exact ⟨hsums ▸ List.mem_cons_self, rfl, hc⟩
  · -- The sum type of a group is made from its constructors.
    refine ⟨⟨group.typeName, ⟨e.2, []⟩⟩, ?_, rfl⟩
    refine Grammar.mem_productions.2 ⟨group.sumType, ?_, rfl, ?_⟩
    · rw [hsums]
      iterate 3 apply List.mem_cons_of_mem
      exact List.mem_map_of_mem hgroup
    · exact List.mem_map.2 ⟨e.2, List.mem_eraseDups.2 (List.mem_map_of_mem he), rfl⟩

/-- The tree of a name, which is given as a leaf. -/
def Tree.ofName (leaf : Tree) : Tree :=
  ⟨⟨"EXPR", ⟨"ID", [.one "IDENT" "name"]⟩⟩, [⟨.one "IDENT" "name", [.child leaf]⟩]⟩

/-! ### Converters -/

/-- A converter over a grammar in which the leaf types are declared as in the bundled one. -/
def Converter.ofSums (g : Grammar) (leaves : ∀ leaf : LeafKind, leaf.sumType ∈ g.sums)
    (primitive : g.isPrimitive "TOKEN" = true) (model : Option Subword.Model)
    (settings : Settings) : Converter where
  grammar := g
  model
  settings
  leaf leaf :=
    { token := ⟨leaf.typeName, ⟨leaf.tokenConstructor, [.one "TOKEN" "token"]⟩⟩
      tokenField := .one "TOKEN" "token"
      subword := ⟨leaf.typeName, ⟨leaf.subwordConstructor, [.many "TOKEN" "pieces"]⟩⟩
      piecesField := .many "TOKEN" "pieces" }
  resolve_leaf leaf := by
    have hmem : ∀ c ∈ leaf.sumType.constructors,
        Production.mk leaf.typeName c ∈ g.productions := fun c hc =>
      Grammar.mem_productions.2 ⟨leaf.sumType, leaves leaf, rfl, hc⟩
    have htoken := hmem _ List.mem_cons_self
    have hsubword := hmem _ (List.mem_cons_of_mem _ List.mem_cons_self)
    have hone : leafField g ⟨leaf.typeName, ⟨leaf.tokenConstructor, [.one "TOKEN" "token"]⟩⟩
        .single = .ok (.one "TOKEN" "token") :=
      if_pos ⟨rfl, primitive⟩
    have hmany : leafField g ⟨leaf.typeName, ⟨leaf.subwordConstructor, [.many "TOKEN" "pieces"]⟩⟩
        .multiple = .ok (.many "TOKEN" "pieces") :=
      if_pos ⟨rfl, primitive⟩
    unfold LeafProductions.resolve
    simp only [bind_eq_ok_iff, mapError_eq_ok_iff, Grammar.production_eq_ok_iff]
    exact ⟨_, ⟨htoken, rfl⟩, _, ⟨hsubword, rfl⟩, _, hone, _, hmany, rfl⟩

/-- A converter over the bundled grammar. -/
def Converter.ofC (model : Option Subword.Model) (settings : Settings) : Converter :=
  .ofSums .ofC (fun leaf => by cases leaf <;> simp [Grammar.sums, Grammar.ofC, cDeclarations]) rfl
    model settings

end TypedSyntax
