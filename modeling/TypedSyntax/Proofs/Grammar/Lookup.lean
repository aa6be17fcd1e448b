import Mathlib.Data.List.Nodup
import TypedSyntax.Grammar.Basic

/-!
# Searching a grammar

The declarations of a grammar fit together, so a name picks at most one thing:

* `Grammar.production?_eq_some_iff` — a constructor name picks the one production of that name;
* `Grammar.productionsOf_eq` — the name of a sum type picks the productions of that type;
* `Grammar.isSum_or_isPrimitive` and `Grammar.not_isPrimitive_of_isSum` — the type of a field is a
  sum type or a primitive type, and never both.

Later proofs know the search functions of a grammar through these lemmas only.
-/

namespace TypedSyntax

theorem SumType.mem_productions {s : SumType} {p : Production} :
    p ∈ s.productions ↔ s.name = p.typeName ∧ p.constructor ∈ s.constructors := by
  rw [SumType.productions, List.mem_map]
  refine ⟨?_, fun ⟨hn, hc⟩ => ⟨p.constructor, hc, by rw [hn]⟩⟩
  rintro ⟨c, hc, rfl⟩
  exact ⟨rfl, hc⟩

namespace Grammar

variable {g : Grammar}

/-! ### Constructor names -/

theorem mem_productions {p : Production} :
    p ∈ g.productions ↔ ∃ s ∈ g.sums, s.name = p.typeName ∧ p.constructor ∈ s.constructors := by
  unfold productions Declarations.productions
  rw [List.mem_flatMap]
  exact exists_congr fun s => and_congr_right fun _ => SumType.mem_productions

/-- No two productions have the same constructor name, not even those of different sum types. -/
theorem nodup_productions_name : (g.productions.map Production.name).Nodup := by
  -- The names of the productions are those of the constructors, which a consistent grammar declares
  -- once each.
  have h : g.productions.map Production.name =
      g.declarations.constructors.map Constructor.name := by
    unfold productions Declarations.productions Declarations.constructors
    rw [List.map_flatMap, List.map_flatMap]
    refine List.flatMap_congr fun s _ => ?_
    rw [SumType.productions, List.map_map]
    rfl
  rw [h]
  exact g.consistent.constructors_nodup

/-- Two productions with the same constructor name are the same. -/
theorem production_ext {p q : Production} (hp : p ∈ g.productions) (hq : q ∈ g.productions)
    (h : p.name = q.name) : p = q :=
  List.inj_on_of_nodup_map nodup_productions_name hp hq h

/-- A constructor name picks the one production of that name. The search goes through the sum types
and stops at the first constructor with the name, and there is no second one. -/
theorem production?_eq_some_iff {name : String} {p : Production} :
    g.production? name = some p ↔ p ∈ g.productions ∧ p.name = name := by
  have sound : ∀ q, g.production? name = some q → q ∈ g.productions ∧ q.name = name := by
    intro q h
    obtain ⟨s, hs, h⟩ := List.exists_of_findSome?_eq_some h
    obtain ⟨c, hc, rfl⟩ := Option.map_eq_some_iff.1 h
    have hname := List.find?_some hc
    exact ⟨mem_productions.2 ⟨s, hs, rfl, List.mem_of_find?_eq_some hc⟩, eq_of_beq hname⟩
  constructor
  · exact sound p
  · rintro ⟨hp, hname⟩
    -- Something is found, since `p` is there; and it can only be `p`, since names are unique.
    cases hq : g.production? name with
    | some q =>
      obtain ⟨hq, hqn⟩ := sound q hq
      rw [production_ext hq hp (hqn.trans hname.symm)]
    | none =>
      -- A search that finds nothing has looked at the constructor of `p`, too.
      obtain ⟨s, hs, -, hc⟩ := mem_productions.1 hp
      have hnone := List.findSome?_eq_none_iff.1 hq s hs
      rw [Option.map_eq_none_iff, List.find?_eq_none] at hnone
      exact absurd (beq_iff_eq.2 hname) (hnone p.constructor hc)

theorem production_eq_ok_iff {name : String} {p : Production} :
    g.production name = .ok p ↔ p ∈ g.productions ∧ p.name = name := by
  rw [← production?_eq_some_iff]
  unfold production
  cases g.production? name with
  | some q => rw [Except.ok.injEq, Option.some.injEq]
  | none => exact ⟨nofun, nofun⟩

/-- A production is found under its own name. -/
theorem production?_name {p : Production} (hp : p ∈ g.productions) :
    g.production? p.name = some p :=
  production?_eq_some_iff.2 ⟨hp, rfl⟩

/-- Searching by constructor name is a scan of the productions. -/
theorem production?_eq_find? (name : String) :
    g.production? name = g.productions.find? (·.name == name) := by
  cases hfind : g.productions.find? (·.name == name) with
  | some p =>
    have hname := List.find?_some hfind
    exact production?_eq_some_iff.2 ⟨List.mem_of_find?_eq_some hfind, eq_of_beq hname⟩
  | none =>
    cases hp : g.production? name with
    | none => rfl
    | some p =>
      obtain ⟨hmem, hname⟩ := production?_eq_some_iff.1 hp
      exact absurd (beq_iff_eq.2 hname) (List.find?_eq_none.1 hfind p hmem)

/-- A search that fails says which name it has looked for, and there is no production of that
name. -/
theorem production_eq_error_iff {name : String} {e : GrammarError} :
    g.production name = .error e ↔
      e = .unknownConstructor name ∧ ∀ p ∈ g.productions, p.name ≠ name := by
  unfold production
  rw [production?_eq_find?]
  cases hfind : g.productions.find? (·.name == name) with
  | some p =>
    refine ⟨nofun, fun h => absurd ?_ (h.2 p (List.mem_of_find?_eq_some hfind))⟩
    have hname := List.find?_some hfind
    exact eq_of_beq hname
  | none =>
    have hnone : ∀ p ∈ g.productions, p.name ≠ name := fun p hp hname =>
      List.find?_eq_none.1 hfind p hp (beq_iff_eq.2 hname)
    exact ⟨fun h => ⟨(Except.error.inj h).symm, hnone⟩, fun h => h.1 ▸ rfl⟩

/-- A field of a production is found under its own name. -/
theorem find?_field {p : Production} (hp : p ∈ g.productions) {f : Field} (hf : f ∈ p.fields) :
    p.fields.find? (·.name == f.name) = some f := by
  obtain ⟨s, hs, -, hc⟩ := mem_productions.1 hp
  have hd : p.constructor ∈ g.declarations.constructors := List.mem_flatMap.2 ⟨s, hs, hc⟩
  -- No other field of the production has the name, so the first one found is `f`.
  have hnodup := g.consistent.fields_nodup p.constructor hd
  cases hfind : p.fields.find? (·.name == f.name) with
  | none => exact absurd (beq_self_eq_true f.name) (List.find?_eq_none.1 hfind f hf)
  | some other =>
    have hname := List.find?_some hfind
    rw [List.inj_on_of_nodup_map hnodup (List.mem_of_find?_eq_some hfind) hf (eq_of_beq hname)]

/-! ### Sum types -/

/-- A sum type is known by its name. -/
theorem sum_ext {s t : SumType} (hs : s ∈ g.sums) (ht : t ∈ g.sums) (h : s.name = t.name) :
    s = t :=
  List.inj_on_of_nodup_map (List.nodup_append.1 g.consistent.types_nodup).2.1 hs ht h

/-- The productions of a sum type are found under its name. -/
theorem productionsOf_name {s : SumType} (hs : s ∈ g.sums) :
    g.productionsOf s.name = .ok s.productions := by
  unfold productionsOf
  cases hfind : g.sums.find? (·.name == s.name) with
  | none => exact absurd (beq_self_eq_true s.name) (List.find?_eq_none.1 hfind s hs)
  | some t =>
    have hname := List.find?_some hfind
    rw [sum_ext (List.mem_of_find?_eq_some hfind) hs (eq_of_beq hname)]

/-- The productions of a sum type are those of its type, in their order. They stand together in the
list of all productions, with none of theirs before or behind them. -/
theorem filter_productions {s : SumType} (hs : s ∈ g.sums) :
    g.productions.filter (·.typeName == s.name) = s.productions := by
  have hother : ∀ ts : List SumType, (∀ t ∈ ts, t ∈ g.sums ∧ t ≠ s) →
      (ts.flatMap SumType.productions).filter (·.typeName == s.name) = [] := by
    intro ts hts
    refine List.filter_eq_nil_iff.2 fun p hp hname => ?_
    obtain ⟨t, ht, hp⟩ := List.mem_flatMap.1 hp
    have hname : t.name = s.name := (SumType.mem_productions.1 hp).1.trans (eq_of_beq hname)
    exact (hts t ht).2 (sum_ext (hts t ht).1 hs hname)
  have hself : s.productions.filter (·.typeName == s.name) = s.productions :=
    List.filter_eq_self.2 fun p hp => beq_iff_eq.2 (SumType.mem_productions.1 hp).1.symm
  -- No sum type is declared twice, so that those before and behind `s` are others.
  have hnodup : g.sums.Nodup := .of_map _ (List.nodup_append.1 g.consistent.types_nodup).2.1
  obtain ⟨before, after, hsplit⟩ := List.append_of_mem hs
  rw [hsplit, List.nodup_middle, List.nodup_cons, List.mem_append, not_or] at hnodup
  obtain ⟨⟨hbefore, hafter⟩, -⟩ := hnodup
  calc g.productions.filter (·.typeName == s.name)
      = ((before ++ s :: after).flatMap SumType.productions).filter (·.typeName == s.name) := by
        rw [← hsplit]
        rfl
    _ = [] ++ (s.productions ++ []) := by
        rw [List.flatMap_append, List.flatMap_cons, List.filter_append, List.filter_append, hself,
          hother before fun t ht => ⟨hsplit ▸ List.mem_append_left _ ht, fun h => hbefore (h ▸ ht)⟩,
          hother after fun t ht => ⟨hsplit ▸ List.mem_append_right _ (List.mem_cons_of_mem _ ht),
            fun h => hafter (h ▸ ht)⟩]
    _ = s.productions := by
        rw [List.nil_append, List.append_nil]

/-- Searching by type is a scan of the productions. -/
theorem productionsOf_eq (typeName : String) :
    g.productionsOf typeName =
      if typeName ∈ g.typeNames then .ok (g.productions.filter (·.typeName == typeName))
      else .error (.unknownType typeName) := by
  by_cases htype : typeName ∈ g.typeNames
  · obtain ⟨s, hs, rfl⟩ := List.mem_map.1 htype
    rw [if_pos htype, productionsOf_name hs, filter_productions hs]
  · have hnone : g.sums.find? (·.name == typeName) = none :=
      List.find?_eq_none.2 fun s hs hname => htype (List.mem_map.2 ⟨s, hs, eq_of_beq hname⟩)
    rw [if_neg htype, productionsOf, hnone]

/-! ### Type names -/

theorem isSum_iff {name : String} : g.isSum name = true ↔ ∃ s ∈ g.sums, s.name = name := by
  unfold isSum
  rw [List.any_eq_true]
  exact exists_congr fun s => and_congr_right fun _ => beq_iff_eq

theorem isPrimitive_iff {name : String} : g.isPrimitive name = true ↔ name ∈ g.primitives := by
  unfold isPrimitive
  rw [List.contains_iff_mem]

theorem isSum_typeName {p : Production} (hp : p ∈ g.productions) : g.isSum p.typeName = true := by
  obtain ⟨s, hs, hn, -⟩ := mem_productions.1 hp
  exact isSum_iff.2 ⟨s, hs, hn⟩

/-- No name is that of a sum type and of a primitive type. -/
theorem not_isPrimitive_of_isSum {name : String} (h : g.isSum name = true) :
    g.isPrimitive name = false := by
  obtain ⟨s, hs, rfl⟩ := isSum_iff.1 h
  rw [Bool.eq_false_iff, ne_eq, isPrimitive_iff]
  intro hp
  -- The primitive types and the sum types share one list of names without repetition.
  have hd := List.disjoint_of_nodup_append g.consistent.types_nodup
  exact hd hp (List.mem_map_of_mem hs)

/-- The type of a field is declared, as a sum type or as a primitive type. -/
theorem isSum_or_isPrimitive {p : Production} (hp : p ∈ g.productions) {f : Field}
    (hf : f ∈ p.fields) : g.isSum f.typeName = true ∨ g.isPrimitive f.typeName = true := by
  obtain ⟨s, hs, -, hc⟩ := mem_productions.1 hp
  have hd : p.constructor ∈ g.declarations.constructors := List.mem_flatMap.2 ⟨s, hs, hc⟩
  have ht := g.consistent.types_declared p.constructor hd f hf
  rcases List.mem_append.1 ht with ht | ht
  · exact Or.inr (isPrimitive_iff.2 ht)
  · exact Or.inl (isSum_iff.2 (List.mem_map.1 ht))

end Grammar

end TypedSyntax
