import Mathlib.Data.List.Induction
import TypedSyntax.Proofs.Except
import TypedSyntax.Proofs.Grammar.Lookup

/-!
# Grammars with an index

A grammar is searched through its declarations, from the first to the last. `Index.ofDeclarations`
does what a program does that is to search one often: it goes over the declarations once, checks
each as it comes, and enters every production into an array, its position into a table under the
name of its constructor, and into another one under its type. It stops at the first problem.

* `Index.ends_ofDeclarations` — the pass stops with the first problem of the declarations, or ends
  with an index in which every position is the one that a scan of the productions finds;
* `Grammar.ofDeclarations_exact` — which declarations make a grammar, and what the searches in it
  and in its index give.

The two tables are filled in while the array grows, so what is in them has to be said of the
productions entered so far (`Index.Lists`). Opening a sum type and entering a production keep it
(`Lists.opened`, `Lists.pushed`), and the rest is induction along the declarations. Whether a
constructor is new is asked of the table of names, which by then has all constructors before it.
-/

namespace TypedSyntax

/-! ### Building an index in one pass -/

/-- The productions of a grammar with their positions. -/
structure Index where
  productions : Array Production := #[]
  /-- The position of the production with a given constructor name. -/
  byConstructor : Std.HashMap String Nat := ∅
  /-- The positions of the productions of a sum type. -/
  byType : Std.HashMap String (Array Nat) := ∅

namespace Index

/-- Collect the names of types, no two of which may be the same. -/
def declare (declared : Std.HashSet String) :
    List String → Except GrammarError (Std.HashSet String)
  | [] => .ok declared
  | name :: names =>
    if name ∈ declared then .error (.duplicateType name)
    else declare (declared.insert name) names

/-- Check the fields of a constructor, of which those named `seen` came before. -/
def checkFields (declared : Std.HashSet String) (constructor : String)
    (seen : Std.HashSet String) : List Field → Except GrammarError Unit
  | [] => .ok ()
  | f :: fs =>
    if f.name ∈ seen then .error (.duplicateField constructor f.name)
    else if f.typeName ∉ declared then .error (.undeclaredType constructor f.name f.typeName)
    else checkFields declared constructor (seen.insert f.name) fs

/-- The index with a sum type that may have no productions yet. -/
def opened (ix : Index) (typeName : String) : Index :=
  { ix with byType := ix.byType.insertIfNew typeName #[] }

/-- The index with one more production, whose sum type has been opened. -/
def pushed (ix : Index) (p : Production) : Index where
  productions := ix.productions.push p
  byConstructor := ix.byConstructor.insert p.name ix.productions.size
  byType := ix.byType.modify p.typeName (·.push ix.productions.size)

/-- Enter the constructors of a sum type. -/
def addConstructors (declared : Std.HashSet String) (typeName : String) (ix : Index) :
    List Constructor → Except GrammarError Index
  | [] => .ok ix
  | c :: cs => do
    checkFields declared c.name ∅ c.fields
    if c.name ∈ ix.byConstructor then .error (.duplicateConstructor c.name)
    else addConstructors declared typeName (ix.pushed ⟨typeName, c⟩) cs

/-- Enter sum types. -/
def addSums (declared : Std.HashSet String) (ix : Index) :
    List SumType → Except GrammarError Index
  | [] => .ok ix
  | s :: ss => do
    let ix ← addConstructors declared s.name (ix.opened s.name) s.constructors
    addSums declared ix ss

/-- The index of a grammar with the given declarations, or the first problem with them. -/
def ofDeclarations (d : Declarations) : Except GrammarError Index := do
  if d.sums.isEmpty then .error .emptyGrammar
  else
    let declared ← declare ∅ d.typeNames
    addSums declared {} d.sums

/-- The production with a given constructor name, or an error that repeats the name. -/
def production (ix : Index) (name : String) : Except GrammarError Production :=
  match ix.byConstructor[name]?.bind (ix.productions[·]?) with
  | some p => .ok p
  | none => .error (.unknownConstructor name)

/-- The productions of a sum type, or an error that repeats its name. -/
def productionsOf (ix : Index) (typeName : String) : Except GrammarError (List Production) :=
  match ix.byType[typeName]? with
  | some positions => .ok (positions.toList.filterMap (ix.productions[·]?))
  | none => .error (.unknownType typeName)

/-! ### What an index lists -/

/-- The index has certain productions of certain sum types, and all positions in it are those that a
scan of the productions finds. -/
structure Lists (ps : List Production) (types : List String) (ix : Index) : Prop where
  productions : ix.productions.toList = ps
  /-- A sum type is opened before its productions are entered. -/
  typeNames : ∀ p ∈ ps, p.typeName ∈ types
  /-- A constructor name has the position at which a scan finds it first. -/
  byConstructor : ∀ name, ix.byConstructor[name]? = ps.findIdx? (·.name == name)
  /-- A sum type has all positions of its productions, in order. -/
  byType : ∀ typeName, ix.byType[typeName]? =
    if typeName ∈ types then some (ps.findIdxs (·.typeName == typeName)).toArray else none

variable {ps : List Production} {types seen : List String} {ix : Index} {p : Production}

theorem lists_empty : Lists [] [] {} where
  productions := rfl
  typeNames := nofun
  byConstructor _ := Std.HashMap.getElem?_empty
  byType _ := Std.HashMap.getElem?_empty

/-- The table of constructor names has the names of the productions entered so far, and no others.
So it can be asked whether a constructor is new. -/
theorem Lists.mem_byConstructor (h : Lists ps types ix) {name : String} :
    name ∈ ix.byConstructor ↔ name ∈ ps.map Production.name := by
  rw [Std.HashMap.mem_iff_isSome_getElem?, h.byConstructor, List.findIdx?_isSome, List.any_eq_true,
    List.mem_map]
  exact exists_congr fun p => and_congr_right fun _ => beq_iff_eq

/-- Opening a sum type keeps what is listed, be it new or open already. -/
theorem Lists.opened (h : Lists ps types ix) (typeName : String) :
    Lists ps (types ++ [typeName]) (ix.opened typeName) where
  productions := h.productions
  typeNames p hp := List.mem_append_left _ (h.typeNames p hp)
  byConstructor := h.byConstructor
  byType other := by
    have hmem : typeName ∈ ix.byType ↔ typeName ∈ types := by
      rw [Std.HashMap.mem_iff_isSome_getElem?, h.byType]
      split <;> simp_all
    rw [Index.opened, Std.HashMap.getElem?_insertIfNew, h.byType]
    simp only [hmem]
    by_cases hnew : other = typeName ∧ typeName ∉ types
    · -- A new sum type has no productions yet.
      obtain ⟨rfl, hnew⟩ := hnew
      have hnone : ps.findIdxs (·.typeName == other) = [] :=
        List.findIdxs_eq_nil_iff.2 fun p hp =>
          beq_false_of_ne fun heq => hnew (heq ▸ h.typeNames p hp)
      simp [hnew, hnone]
    · have hother : other ∈ types ++ [typeName] ↔ other ∈ types := by
        simp only [List.mem_append, List.mem_singleton]
        grind
      have hkept : ¬ ((typeName == other) = true ∧ typeName ∉ types) := by
        rintro ⟨heq, htype⟩
        exact hnew ⟨(eq_of_beq heq).symm, htype⟩
      rw [if_neg hkept]
      simp only [hother]

/-- Entering a production of an open sum type keeps what is listed, if its name is new. -/
theorem Lists.pushed (h : Lists ps types ix) (htype : p.typeName ∈ types)
    (hnew : p.name ∉ ps.map Production.name) : Lists (ps ++ [p]) types (ix.pushed p) := by
  have hsize : ix.productions.size = ps.length := by
    rw [← h.productions, Array.length_toList]
  refine ⟨?_, ?_, fun name => ?_, fun typeName => ?_⟩
  · rw [Index.pushed, Array.toList_push, h.productions]
  · exact List.forall_mem_append.2 ⟨h.typeNames, List.forall_mem_singleton.2 htype⟩
  · rw [Index.pushed, Std.HashMap.getElem?_insert, h.byConstructor, List.findIdx?_append, hsize]
    by_cases hname : p.name = name
    · -- The name is new, so the scan goes on to the last production.
      have hnone : ps.findIdx? (·.name == name) = none :=
        List.findIdx?_eq_none_iff.2 fun q hq => beq_false_of_ne fun heq =>
          hnew (List.mem_map.2 ⟨q, hq, heq.trans hname.symm⟩)
      simp [hname, hnone]
    · simp [hname]
  · rw [Index.pushed, Std.HashMap.getElem?_modify, h.byType, h.byType, List.findIdxs_append,
      List.findIdxs_singleton, hsize, Nat.zero_add]
    -- The position of the production comes last among those of its type, as it does in a scan.
    by_cases heq : p.typeName = typeName
    · subst heq
      simp [htype]
    · simp [heq]

/-! ### One pass over the declarations -/

/-- A computation ends with a problem, if there is one, and otherwise with a result of some kind. -/
def Ends {α : Type} (problem : Option GrammarError) (Q : α → Prop) (x : Except GrammarError α) :
    Prop :=
  match problem with
  | some e => x = .error e
  | none => ∃ a, x = .ok a ∧ Q a

section Ends

variable {α β : Type} {problem problem' : Option GrammarError} {Q : α → Prop} {R : β → Prop}
  {x : Except GrammarError α}

theorem Ends.ok {a : α} (h : Q a) : Ends none Q (.ok a) :=
  ⟨a, rfl, h⟩

theorem Ends.error (e : GrammarError) : Ends (some e) Q (.error e) :=
  rfl

/-- What comes second is looked at only if there was no problem with what came first. -/
theorem Ends.bind {f : α → Except GrammarError β} (hx : Ends problem Q x)
    (hf : ∀ a, Q a → Ends problem' R (f a)) : Ends (problem.or problem') R (x >>= f) := by
  cases problem with
  | some e =>
    have hx : x = .error e := hx
    rw [hx]
    exact .error e
  | none =>
    obtain ⟨a, rfl, ha⟩ := hx
    rw [Option.none_or]
    exact hf a ha

/-- The error is the problem. So what ends with a problem fails exactly if there is one, and it is
enough to know what the first problem is. -/
theorem Ends.eq_error_iff (hx : Ends problem Q x) {e : GrammarError} :
    x = .error e ↔ problem = some e := by
  cases problem with
  | some e' =>
    have hx : x = .error e' := hx
    rw [hx, Except.error.injEq, Option.some.injEq]
  | none =>
    obtain ⟨a, rfl, -⟩ := hx
    exact ⟨nofun, nofun⟩

end Ends

/-- A set of names has the names in a list. -/
def Covers (names : Std.HashSet String) (list : List String) : Prop :=
  ∀ name, name ∈ names ↔ name ∈ list

theorem covers_empty : Covers ∅ [] :=
  fun _ => by simp

theorem Covers.insert {names : Std.HashSet String} {list : List String} (h : Covers names list)
    (name : String) : Covers (names.insert name) (name :: list) := by
  intro other
  rw [Std.HashSet.mem_insert, List.mem_cons, h other, beq_iff_eq, eq_comm]

/-- Collecting the names of types stops at the first one that has been there. -/
theorem ends_declare {declared : Std.HashSet String} {names : List String}
    (h : Covers declared seen) :
    Ends ((firstRepeat? seen names).map .duplicateType) (Covers · (seen ++ names))
      (declare declared names) := by
  induction names generalizing declared seen with
  | nil => exact .ok (by rwa [List.append_nil])
  | cons name names ih =>
    rw [firstRepeat?, declare]
    simp only [h name]
    split
    · exact .error _
    · -- The set has no order, so it does not matter at which end the new name is listed.
      have hnext := ih (h.insert name)
      have hsame : ∀ all, Covers all (name :: seen ++ names) ↔ Covers all (seen ++ name :: names) :=
        fun all => forall_congr' fun other => by simp [or_left_comm]
      simpa only [hsame] using hnext

/-- Checking fields one by one finds the first problem with them. -/
theorem ends_checkFields {declared seen' : Std.HashSet String} {constructor : String}
    {fs : List Field} (hdeclared : Covers declared types) (h : Covers seen' seen) :
    Ends (fieldProblem? types constructor seen fs) (fun _ => True)
      (checkFields declared constructor seen' fs) := by
  induction fs generalizing seen seen' with
  | nil => exact .ok trivial
  | cons f fs ih =>
    rw [fieldProblem?, checkFields]
    simp only [h f.name, hdeclared f.typeName]
    split
    · exact .error _
    · split
      · exact .error _
      · exact ih (h.insert f.name)

theorem constructorProblem?_cons (c : Constructor) (cs : List Constructor) :
    constructorProblem? types seen (c :: cs) =
      (fieldProblem? types c.name [] c.fields).or
        (if c.name ∈ seen then some (.duplicateConstructor c.name)
          else constructorProblem? types (c.name :: seen) cs) := by
  rw [constructorProblem?]
  cases fieldProblem? types c.name [] c.fields <;> rfl

/-- The problems of more constructors come behind those of the first ones, of which the names have
been seen by then. -/
theorem constructorProblem?_append (cs ds : List Constructor) :
    constructorProblem? types seen (cs ++ ds) = (constructorProblem? types seen cs).or
      (constructorProblem? types ((cs.map Constructor.name).reverse ++ seen) ds) := by
  induction cs generalizing seen with
  | nil => rfl
  | cons c cs ih =>
    rw [List.cons_append, constructorProblem?_cons, constructorProblem?_cons, Option.or_assoc]
    split
    · rfl
    · rw [ih, List.map_cons, List.reverse_cons, List.append_assoc, List.singleton_append]

/-- Entering constructors stops with their first problem, or ends with all of them entered. The
fields of a constructor are checked before its name. -/
theorem ends_addConstructors {all : List String} {declared : Std.HashSet String}
    {typeName : String} {cs : List Constructor} (hdeclared : Covers declared all)
    (h : Lists ps types ix) (htype : typeName ∈ types)
    (hseen : ∀ name, name ∈ seen ↔ name ∈ ps.map Production.name) :
    Ends (constructorProblem? all seen cs) (Lists (ps ++ cs.map (Production.mk typeName)) types)
      (addConstructors declared typeName ix cs) := by
  induction cs generalizing ps seen ix with
  | nil => exact .ok (by rwa [List.map_nil, List.append_nil])
  | cons c cs ih =>
    rw [constructorProblem?_cons, addConstructors]
    refine (ends_checkFields hdeclared covers_empty).bind fun _ _ => ?_
    simp only [hseen c.name, h.mem_byConstructor]
    split
    · exact .error _
    · next hnew =>
      have hpushed : Lists (ps ++ [Production.mk typeName c]) types _ := h.pushed htype hnew
      have hseen' : ∀ name, name ∈ c.name :: seen ↔
          name ∈ (ps ++ [Production.mk typeName c]).map Production.name := by
        intro name
        simp [hseen name, Production.name, or_comm]
      have hrest := ih hpushed hseen'
      rwa [List.append_assoc, List.singleton_append] at hrest

/-- Entering sum types stops with the first problem of their constructors, or ends with all of them
entered. -/
theorem ends_addSums {all : List String} {declared : Std.HashSet String} {ss : List SumType}
    (hdeclared : Covers declared all) (h : Lists ps types ix)
    (hseen : ∀ name, name ∈ seen ↔ name ∈ ps.map Production.name) :
    Ends (constructorProblem? all seen (ss.flatMap SumType.constructors))
      (Lists (ps ++ ss.flatMap SumType.productions) (types ++ ss.map SumType.name))
      (addSums declared ix ss) := by
  induction ss generalizing ps types seen ix with
  | nil => exact .ok (by rwa [List.flatMap_nil, List.map_nil, List.append_nil, List.append_nil])
  | cons s ss ih =>
    rw [List.flatMap_cons, constructorProblem?_append, addSums]
    have htype : s.name ∈ types ++ [s.name] := List.mem_append_right _ List.mem_cons_self
    refine (ends_addConstructors hdeclared (h.opened s.name) htype hseen).bind fun ix' h' => ?_
    -- The names are seen in reverse order, which membership does not tell.
    have hseen' : ∀ name, name ∈ (s.constructors.map Constructor.name).reverse ++ seen ↔
        name ∈ (ps ++ s.constructors.map (Production.mk s.name)).map Production.name := by
      intro name
      simp [hseen name, Production.name, or_comm]
    have hrest := ih h' hseen'
    rwa [List.append_assoc, List.append_assoc, List.singleton_append] at hrest

/-- **The pass stops with the first problem.** If there is none, it ends with an index of the
productions. -/
theorem ends_ofDeclarations (d : Declarations) :
    Ends d.firstProblem? (Lists d.productions (d.sums.map SumType.name)) (ofDeclarations d) := by
  have hproblem : d.firstProblem? = if d.sums.isEmpty then some .emptyGrammar
      else ((firstRepeat? [] d.typeNames).map .duplicateType).or
        (constructorProblem? d.typeNames [] d.constructors) := by
    unfold Declarations.firstProblem?
    cases firstRepeat? [] d.typeNames <;> rfl
  rw [hproblem, ofDeclarations]
  split
  · exact .error _
  · refine (ends_declare covers_empty).bind fun declared hdeclared => ?_
    exact ends_addSums hdeclared lists_empty fun _ => Iff.rfl

/-! ### Searching an index -/

/-- To look up the positions of some items is to filter them. -/
theorem filterMap_findIdxs {α : Type} (xs : List α) (p : α → Bool) :
    (xs.findIdxs p).filterMap (xs[·]?) = xs.filter p := by
  induction xs using List.reverseRecOn with
  | nil => rfl
  | append_singleton xs x ih =>
    -- The positions in `xs` are still those of the same items.
    have hbefore : (xs.findIdxs p).filterMap ((xs ++ [x])[·]?) =
        (xs.findIdxs p).filterMap (xs[·]?) := by
      refine List.filterMap_congr fun i hi => List.getElem?_append_left ?_
      exact (List.mem_findIdxs_iff_exists_getElem_pos.1 hi).1
    rw [List.findIdxs_append, List.filterMap_append, hbefore, ih, List.filter_append,
      List.findIdxs_singleton, Nat.zero_add, List.filter_singleton]
    cases p x with
    | false => rfl
    | true => simp

variable {g : Grammar}

/-- A search by the name of a constructor ends as a scan does. -/
theorem Lists.production_eq (h : Lists g.productions g.typeNames ix) (name : String) :
    ix.production name = g.production name := by
  have hfind : ix.byConstructor[name]?.bind (ix.productions[·]?) = g.production? name := by
    rw [Grammar.production?_eq_find?, List.find?_eq_bind_findIdx?_getElem?, h.byConstructor]
    simp only [← h.productions, Array.getElem?_toList]
  rw [Index.production, hfind]
  unfold Grammar.production
  cases g.production? name with
  | some p => rfl
  | none => rfl

/-- A search by type ends as a scan does. The index has positions only, which give the productions
in the order of the grammar since they were entered in this order. -/
theorem Lists.productionsOf_eq (h : Lists g.productions g.typeNames ix) (typeName : String) :
    ix.productionsOf typeName = g.productionsOf typeName := by
  rw [Index.productionsOf, Grammar.productionsOf_eq, h.byType]
  by_cases htype : typeName ∈ g.typeNames
  · rw [if_pos htype, if_pos htype]
    show Except.ok (List.filterMap (ix.productions[·]?) _) = _
    simp only [← Array.getElem?_toList, h.productions, filterMap_findIdxs]
  · rw [if_neg htype, if_neg htype]

end Index

/-- What it takes for declarations to fit together, sum type by sum type. -/
theorem Declarations.consistent_iff {d : Declarations} :
    d.Consistent ↔ d.sums ≠ [] ∧ (d.primitives ++ d.sums.map SumType.name).Nodup ∧
      ((d.sums.flatMap SumType.constructors).map Constructor.name).Nodup ∧
      ∀ s ∈ d.sums, ∀ c ∈ s.constructors, (c.fields.map Field.name).Nodup ∧
        ∀ f ∈ c.fields, f.typeName ∈ d.primitives ∨ ∃ t ∈ d.sums, t.name = f.typeName := by
  refine ⟨fun h => ?_, ?_⟩
  · refine ⟨h.sums_ne_nil, h.types_nodup, h.constructors_nodup, fun s hs c hc => ?_⟩
    have hmem : c ∈ d.constructors := List.mem_flatMap.2 ⟨s, hs, hc⟩
    refine ⟨h.fields_nodup c hmem, fun f hf => ?_⟩
    exact (List.mem_append.1 (h.types_declared c hmem f hf)).imp_right List.mem_map.1
  · rintro ⟨hne, htypes, hconstructors, hfields⟩
    refine ⟨hne, htypes, hconstructors, fun c hc => ?_, fun c hc f hf => ?_⟩
    · obtain ⟨s, hs, hc⟩ := List.mem_flatMap.1 hc
      exact (hfields s hs c hc).1
    · obtain ⟨s, hs, hc⟩ := List.mem_flatMap.1 hc
      exact List.mem_append.2 (((hfields s hs c hc).2 f hf).imp_right List.mem_map.2)

namespace Grammar

variable {g : Grammar}

/-- The productions of the sum types, one after the other. -/
theorem mapM_productionsOf :
    g.typeNames.mapM g.productionsOf = .ok (g.sums.map SumType.productions) := by
  rw [mapM_eq_ok_iff, typeNames, List.forall₂_map_left_iff, List.forall₂_map_right_iff,
    List.forall₂_same]
  exact fun s hs => productionsOf_name hs

theorem exists_ofDeclarations_iff {d : Declarations} :
    (∃ g, ofDeclarations d = .ok g) ↔ d.Consistent := by
  refine ⟨fun ⟨g, hg⟩ => ?_, fun h => ⟨⟨d, h⟩, ofDeclarations_eq_ok_iff.2 rfl⟩⟩
  exact ofDeclarations_eq_ok_iff.1 hg ▸ g.consistent

/-- **Which declarations make a grammar, and what is found in it.** There is a sum type, no two
types and no two constructors share a name, no constructor repeats the name of a field, and every
field has a declared type. Then all productions are those of the sum types in declared order, a
constructor name picks the one production of that name, and the name of a sum type picks the
productions of that type, which taken together are all. One pass over the declarations gives the
same grammar with an index, in which every search ends the same way, or the same problem. -/
theorem ofDeclarations_exact (d : Declarations) :
    ((∃ g, ofDeclarations d = .ok g) ↔
      d.sums ≠ [] ∧ (d.primitives ++ d.sums.map SumType.name).Nodup ∧
      ((d.sums.flatMap SumType.constructors).map Constructor.name).Nodup ∧
      ∀ s ∈ d.sums, ∀ c ∈ s.constructors, (c.fields.map Field.name).Nodup ∧
        ∀ f ∈ c.fields, f.typeName ∈ d.primitives ∨ ∃ t ∈ d.sums, t.name = f.typeName) ∧
    (∀ e, Index.ofDeclarations d = .error e ↔ ofDeclarations d = .error e) ∧
    ∀ g, ofDeclarations d = .ok g →
      g.typeNames = d.sums.map SumType.name ∧
      g.productions = d.sums.flatMap (fun s => s.constructors.map (Production.mk s.name)) ∧
      (∀ name p, g.production name = .ok p ↔ p ∈ g.productions ∧ p.name = name) ∧
      (∀ name e, g.production name = .error e ↔
        e = .unknownConstructor name ∧ ∀ p ∈ g.productions, p.name ≠ name) ∧
      (∀ typeName, g.productionsOf typeName =
        if typeName ∈ g.typeNames then .ok (g.productions.filter (·.typeName == typeName))
        else .error (.unknownType typeName)) ∧
      (∃ pss, g.typeNames.mapM g.productionsOf = .ok pss ∧ pss.flatten = g.productions) ∧
      ∃ ix, Index.ofDeclarations d = .ok ix ∧ ix.Lists g.productions g.typeNames ∧
        (∀ name, ix.production name = g.production name) ∧
        ∀ typeName, ix.productionsOf typeName = g.productionsOf typeName := by
  have hends := Index.ends_ofDeclarations d
  refine ⟨exists_ofDeclarations_iff.trans Declarations.consistent_iff, fun e => ?_, fun g hg => ?_⟩
  · rw [hends.eq_error_iff, ofDeclarations_eq_error_iff]
  · obtain rfl := ofDeclarations_eq_ok_iff.1 hg
    rw [Declarations.firstProblem?_eq_none_iff.2 g.consistent] at hends
    -- There is no problem, so the pass ends with an index of the same productions.
    obtain ⟨ix, hix, hlists⟩ := hends
    refine ⟨rfl, rfl, fun _ _ => production_eq_ok_iff, fun _ _ => production_eq_error_iff,
      productionsOf_eq, ⟨_, mapM_productionsOf, rfl⟩, ix, hix, hlists, ?_, ?_⟩
    · exact hlists.production_eq
    · exact hlists.productionsOf_eq

/-- A block is a list of statements, which are declared after it. -/
def blockDeclarations : Declarations where
  sums := [⟨"BLOCK", [⟨"Block", [⟨"items", "STMT", .multiple⟩]⟩]⟩,
    ⟨"STMT", [⟨"Pass", []⟩, ⟨"Nested", [⟨"block", "BLOCK", .single⟩]⟩]⟩]

/-- Blocks and statements make a grammar, in which statements are found by their type, and one of
them by its name, with the index and without. -/
theorem ofDeclarations_exact_block :
    ∃ g, ofDeclarations blockDeclarations = .ok g ∧
      g.productionsOf "STMT" = .ok [⟨"STMT", ⟨"Pass", []⟩⟩,
        ⟨"STMT", ⟨"Nested", [⟨"block", "BLOCK", .single⟩]⟩⟩] ∧
      ∃ ix, Index.ofDeclarations blockDeclarations = .ok ix ∧
        ix.production "Pass" = .ok ⟨"STMT", ⟨"Pass", []⟩⟩ := by
  obtain ⟨hiff, -, hok⟩ := ofDeclarations_exact blockDeclarations
  obtain ⟨g, hg⟩ := hiff.2 (by decide)
  obtain ⟨htypes, hproductions, hname, -, htype, -, ix, hix, -, hixName, -⟩ := hok g hg
  refine ⟨g, hg, ?_, ix, hix, ?_⟩
  · rw [htype, htypes, hproductions]
    rfl
  · rw [hixName, hname, hproductions]
    decide

end Grammar

end TypedSyntax
