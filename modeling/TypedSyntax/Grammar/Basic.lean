import TypedSyntax.Grammar.Error

/-!
# Grammars

A `Grammar` is a list of declarations that fit together (`Declarations.Consistent`): there is a
sum type, no two types and no two constructors share a name, no constructor repeats a field, and
every field has a declared type. Since constructor names are unique, a constructor name alone
picks a production.

* `Declarations.firstProblem?`: the first thing in reading order that keeps declarations from
  being a grammar; `firstProblem?_eq_none_iff` says that it is missing exactly when they are one.
* `Grammar.ofDeclarations`: the grammar, or that problem.
* `Grammar.production?`, `Grammar.productionsOf?`: search by constructor name and by type.
-/

namespace TypedSyntax

/-- The declarations fit together. -/
structure Declarations.Consistent (d : Declarations) : Prop where
  /-- There is a sum type. -/
  sums_ne_nil : d.sums ≠ []
  /-- No two types share a name. -/
  types_nodup : d.typeNames.Nodup
  /-- No two constructors share a name. -/
  constructors_nodup : (d.constructors.map Constructor.name).Nodup
  /-- No two fields of a constructor share a name. -/
  fields_nodup : ∀ c ∈ d.constructors, (c.fields.map Field.name).Nodup
  /-- Every field has a declared type, be it declared before or after the field. -/
  types_declared : ∀ c ∈ d.constructors, ∀ f ∈ c.fields, f.typeName ∈ d.typeNames

/-! ### The first problem -/

/-- The first name that also stands earlier in the list, or in `seen`. -/
def firstRepeat? (seen : List String) : List String → Option String
  | [] => none
  | a :: as => if a ∈ seen then some a else firstRepeat? (a :: seen) as

/-- The first problem among the fields of a constructor, of which those named `seen` came before.
A repeated name is noticed before an undeclared type. -/
def fieldProblem? (types : List String) (constructor : String) (seen : List String) :
    List Field → Option GrammarError
  | [] => none
  | f :: fs =>
    if f.name ∈ seen then some (.duplicateField constructor f.name)
    else if f.typeName ∉ types then some (.undeclaredType constructor f.name f.typeName)
    else fieldProblem? types constructor (f.name :: seen) fs

/-- The first problem among constructors, of which those named `seen` came before. The fields of a
constructor are looked at before its own name. -/
def constructorProblem? (types seen : List String) : List Constructor → Option GrammarError
  | [] => none
  | c :: cs =>
    match fieldProblem? types c.name [] c.fields with
    | some problem => some problem
    | none =>
      if c.name ∈ seen then some (.duplicateConstructor c.name)
      else constructorProblem? types (c.name :: seen) cs

/-- The first problem in reading order: first that there is no sum type, then the names of the
types, then the constructors. -/
def Declarations.firstProblem? (d : Declarations) : Option GrammarError :=
  if d.sums.isEmpty then some .emptyGrammar
  else
    match firstRepeat? [] d.typeNames with
    | some name => some (.duplicateType name)
    | none => constructorProblem? d.typeNames [] d.constructors

theorem firstRepeat?_eq_none_iff {seen as : List String} :
    firstRepeat? seen as = none ↔ as.Nodup ∧ ∀ a ∈ as, a ∉ seen := by
  induction as generalizing seen with
  | nil => simp [firstRepeat?]
  | cons a as ih =>
    by_cases h : a ∈ seen
    · simp [firstRepeat?, h]
    · simp only [firstRepeat?, h, if_false, ih, List.nodup_cons, List.mem_cons]
      grind

theorem fieldProblem?_eq_none_iff {types seen : List String} {constructor : String}
    {fs : List Field} :
    fieldProblem? types constructor seen fs = none ↔
      (fs.map Field.name).Nodup ∧ (∀ f ∈ fs, f.name ∉ seen) ∧ ∀ f ∈ fs, f.typeName ∈ types := by
  induction fs generalizing seen with
  | nil => simp [fieldProblem?]
  | cons f fs ih =>
    by_cases h : f.name ∈ seen
    · simp [fieldProblem?, h]
    · by_cases ht : f.typeName ∈ types
      · simp only [fieldProblem?, h, ht, if_false, not_true_eq_false, ih, List.map_cons,
          List.nodup_cons, List.mem_map, List.mem_cons]
        grind
      · simp [fieldProblem?, h, ht]

theorem constructorProblem?_eq_none_iff {types seen : List String} {cs : List Constructor} :
    constructorProblem? types seen cs = none ↔
      (cs.map Constructor.name).Nodup ∧ (∀ c ∈ cs, c.name ∉ seen) ∧
        ∀ c ∈ cs, fieldProblem? types c.name [] c.fields = none := by
  induction cs generalizing seen with
  | nil => simp [constructorProblem?]
  | cons c cs ih =>
    cases hf : fieldProblem? types c.name [] c.fields with
    | some problem => simp [constructorProblem?, hf]
    | none =>
      by_cases h : c.name ∈ seen
      · simp [constructorProblem?, hf, h]
      · simp only [constructorProblem?, hf, h, if_false, ih, List.map_cons, List.nodup_cons,
          List.mem_map, List.mem_cons]
        grind

/-- Declarations have no problem exactly when they fit together. -/
theorem Declarations.firstProblem?_eq_none_iff {d : Declarations} :
    d.firstProblem? = none ↔ d.Consistent := by
  constructor
  · intro h
    unfold firstProblem? at h
    split at h
    · simp at h
    · rename_i hs
      split at h
      · simp at h
      · rename_i hr
        obtain ⟨hnd, -, hf⟩ := constructorProblem?_eq_none_iff.1 h
        exact
          { sums_ne_nil := by simpa using hs
            types_nodup := (firstRepeat?_eq_none_iff.1 hr).1
            constructors_nodup := hnd
            fields_nodup := fun c hc => (fieldProblem?_eq_none_iff.1 (hf c hc)).1
            types_declared := fun c hc => (fieldProblem?_eq_none_iff.1 (hf c hc)).2.2 }
  · intro h
    have hr : firstRepeat? [] d.typeNames = none :=
      firstRepeat?_eq_none_iff.2 ⟨h.types_nodup, by simp⟩
    have hs : d.sums.isEmpty = false := by
      simpa using h.sums_ne_nil
    simp only [firstProblem?, hs, hr]
    refine constructorProblem?_eq_none_iff.2 ⟨h.constructors_nodup, by simp, fun c hc => ?_⟩
    exact fieldProblem?_eq_none_iff.2 ⟨h.fields_nodup c hc, by simp, h.types_declared c hc⟩

/-! ### Grammars -/

/-- Declarations that fit together. -/
structure Grammar where
  declarations : Declarations
  consistent : declarations.Consistent

namespace Grammar

/-- The grammar with the given declarations, or the first problem with them. -/
def ofDeclarations (d : Declarations) : Except GrammarError Grammar :=
  match h : d.firstProblem? with
  | some problem => .error problem
  | none => .ok ⟨d, Declarations.firstProblem?_eq_none_iff.1 h⟩

/-- Declarations make a grammar exactly when they fit together, and it declares just them. -/
theorem ofDeclarations_eq_ok_iff {d : Declarations} {g : Grammar} :
    ofDeclarations d = .ok g ↔ g.declarations = d := by
  unfold ofDeclarations
  constructor
  · intro h
    split at h
    · cases h
    · cases h
      rfl
  · rintro rfl
    have hg := Declarations.firstProblem?_eq_none_iff.2 g.consistent
    split
    · simp_all
    · rfl

/-- An error is the first problem of the declarations. -/
theorem ofDeclarations_eq_error_iff {d : Declarations} {e : GrammarError} :
    ofDeclarations d = .error e ↔ d.firstProblem? = some e := by
  unfold ofDeclarations
  split <;> simp_all

variable (g : Grammar)

/-- The names of the primitive types. -/
def primitives : List String :=
  g.declarations.primitives

/-- The sum types. -/
def sums : List SumType :=
  g.declarations.sums

/-- The names of the sum types. -/
def typeNames : List String :=
  g.sums.map SumType.name

/-- All productions. -/
def productions : List Production :=
  g.declarations.productions

/-- The name of the first sum type. -/
def rootType : String :=
  (g.sums.head g.consistent.sums_ne_nil).name

/-- Whether a name is that of a primitive type. -/
def isPrimitive (name : String) : Bool :=
  g.primitives.contains name

/-- Whether a name is that of a sum type. -/
def isSum (name : String) : Bool :=
  g.sums.any (·.name == name)

/-- The production with a given constructor name. -/
def production? (name : String) : Option Production :=
  g.sums.findSome? fun s => (s.constructors.find? (·.name == name)).map (Production.mk s.name)

/-- The production with a given constructor name, or an error that repeats the name. -/
def production (name : String) : Except GrammarError Production :=
  match g.production? name with
  | some p => .ok p
  | none => .error (.unknownConstructor name)

/-- The productions of a sum type, or an error that repeats its name. -/
def productionsOf (typeName : String) : Except GrammarError (List Production) :=
  match g.sums.find? (·.name == typeName) with
  | some s => .ok s.productions
  | none => .error (.unknownType typeName)

end Grammar

end TypedSyntax
