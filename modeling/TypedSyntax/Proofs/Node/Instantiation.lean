import Mathlib.Data.List.Induction
import Mathlib.Data.List.Perm.Basic
import TypedSyntax.Proofs.Node.Shape

/-!
# Making a node from named values

A node is made from a list of named values in one go. The values may come in any order, but there
must be one for each attribute of the kind, and each must suit its attribute (`Attr.Suits`). Values
are taken in the order they come in, and the first one that cannot be taken decides about the error;
what is missing is noticed only when all have been taken.

* `Node.ofAttrs_exact` — which lists make a node and what it holds, and which error the others
  give. The order of the list matters for the error only.

`Node.Fault` says once why a value cannot be taken, given those before it. Then a list of values is
`Faultless`, or it has a first value at fault (`exists_first_fault`). The invariant of the scan is
`Taken`: under each name that has come, and under no other, there is the stored form of its value.
-/

namespace TypedSyntax

/-! ### Values and attributes -/

namespace Attr

variable {α : Type}

/-- A value may be given for an attribute: a list or nothing if the attribute holds a list, and
anything but a list otherwise. -/
def Suits (spec : AttrSpec) (a : Attr α) : Prop :=
  if spec.isList = true then a = .none ∨ ∃ items, a = .list items else ∀ items, a ≠ .list items

theorem fits_iff {spec : AttrSpec} {a : Attr α} : a.fits spec = true ↔ a.Suits spec := by
  obtain ⟨name, isList⟩ := spec
  cases a <;> cases isList <;> simp [fits, Suits]

/-- A value that does not suit its attribute is refused with the attribute. -/
theorem conform_eq_error {kind : Kind} {spec : AttrSpec} {a : Attr α} (h : ¬ a.Suits spec) :
    a.conform kind spec = .error (.attrShape kind spec) := by
  rw [← fits_iff] at h
  -- The value is not missing, since a missing one would do.
  have hsome : ¬ (spec.isList = true ∧ a.isNone = true) := by
    rintro ⟨-, hnone⟩
    cases a with
    | none => exact h rfl
    | text _ | node _ | list _ => exact absurd hnone Bool.false_ne_true
  rw [conform, if_neg hsome, if_neg h]

end Attr

namespace Kind

theorem mem_attrNames {k : Kind} {name : String} :
    name ∈ k.attrNames ↔ ∃ spec ∈ k.attrs, spec.name = name :=
  List.mem_map

/-- An attribute is known by its name. -/
theorem attr_ext {k : Kind} {spec spec' : AttrSpec} (h : spec ∈ k.attrs) (h' : spec' ∈ k.attrs)
    (hname : spec.name = spec'.name) : spec = spec' :=
  List.inj_on_of_nodup_map k.nodup_attrNames h h' hname

theorem attr?_eq_none {k : Kind} {name : String} (h : name ∉ k.attrNames) :
    k.attr? name = none := by
  refine List.find?_eq_none.2 fun spec hspec hname => h ?_
  exact mem_attrNames.2 ⟨spec, hspec, eq_of_beq hname⟩

end Kind

namespace Node

variable {kind : Kind} {attrs before given : List (String × Attr Node)}
  {pair : String × Attr Node} {e : NodeError}

/-! ### Values at fault -/

/-- Why a named value cannot be taken behind others. -/
inductive Fault (kind : Kind) (before : List (String × Attr Node)) :
    String × Attr Node → NodeError → Prop where
  /-- The kind has no such attribute. -/
  | unknown {name : String} {value : Attr Node} (h : name ∉ kind.attrNames) :
      Fault kind before (name, value) (.unknownAttribute kind name)
  /-- The attribute has come before. -/
  | repeated {name : String} {value : Attr Node} (declared : name ∈ kind.attrNames)
      (h : name ∈ before.map Prod.fst) :
      Fault kind before (name, value) (.duplicateAttribute kind name)
  /-- The attribute is new, but the value does not suit it. -/
  | misfit {spec : AttrSpec} {value : Attr Node} (declared : spec ∈ kind.attrs)
      (new : spec.name ∉ before.map Prod.fst) (h : ¬ value.Suits spec) :
      Fault kind before (spec.name, value) (.attrShape kind spec)

/-- None of the values is at fault, wherever the list is split in front of it. -/
def Faultless (kind : Kind) (attrs : List (String × Attr Node)) : Prop :=
  ∀ before pair after e, attrs = before ++ pair :: after → ¬ Fault kind before pair e

/-- Values that can all be taken: the names are declared, no two are the same, and each value suits
the attribute of its name. -/
structure Takes (kind : Kind) (attrs : List (String × Attr Node)) : Prop where
  distinct : (attrs.map Prod.fst).Nodup
  suits : ∀ pair ∈ attrs, ∃ spec ∈ kind.attrs, spec.name = pair.1 ∧ pair.2.Suits spec

/-- One more value can be taken exactly if it is not at fault behind the others. -/
theorem takes_concat_iff :
    Takes kind (attrs ++ [pair]) ↔ Takes kind attrs ∧ ∀ e, ¬ Fault kind attrs pair e := by
  obtain ⟨name, value⟩ := pair
  refine ⟨fun h => ?_, fun ⟨h, hfault⟩ => ?_⟩
  · have hdistinct := h.distinct
    rw [List.map_append, List.nodup_append] at hdistinct
    obtain ⟨hsuits, hlast⟩ := List.forall_mem_append.1 h.suits
    obtain ⟨spec, hspec, hname, hvalue⟩ := hlast (name, value) List.mem_cons_self
    refine ⟨⟨hdistinct.1, hsuits⟩, fun e hfault => ?_⟩
    cases hfault with
    | unknown hunknown => exact hunknown (Kind.mem_attrNames.2 ⟨spec, hspec, hname⟩)
    | repeated _ hmem => exact hdistinct.2.2 _ hmem _ List.mem_cons_self rfl
    | misfit hdeclared _ hmisfit => exact hmisfit (Kind.attr_ext hspec hdeclared hname ▸ hvalue)
  · -- A value that is not at fault has a name that is declared and new, and suits its attribute.
    have hdeclared : name ∈ kind.attrNames := by
      by_contra hunknown
      exact hfault _ (.unknown hunknown)
    have hnew : name ∉ attrs.map Prod.fst := fun hmem => hfault _ (.repeated hdeclared hmem)
    obtain ⟨spec, hspec, rfl⟩ := Kind.mem_attrNames.1 hdeclared
    have hvalue : value.Suits spec := by
      by_contra hmisfit
      exact hfault _ (.misfit hspec hnew hmisfit)
    refine ⟨?_, List.forall_mem_append.2 ⟨h.suits, ?_⟩⟩
    · rw [List.map_append, List.nodup_append]
      refine ⟨h.distinct, List.nodup_singleton _, fun other hother last hlast heq => hnew ?_⟩
      rw [heq, List.mem_singleton.1 hlast] at hother
      exact hother
    · rintro pair hpair
      rw [List.mem_singleton.1 hpair]
      exact ⟨spec, hspec, rfl, hvalue⟩

/-- Values can be taken, or there is a first one at fault. -/
theorem exists_first_fault (h : ¬ Takes kind attrs) : ∃ before pair after e,
    attrs = before ++ pair :: after ∧ Takes kind before ∧ Fault kind before pair e := by
  -- The last value is at fault if those before it are not: induction from the end of the list.
  induction attrs using List.reverseRecOn with
  | nil => exact absurd ⟨List.nodup_nil, nofun⟩ h
  | append_singleton attrs last ih =>
    by_cases hattrs : Takes kind attrs
    · rw [takes_concat_iff, not_and, not_forall_not] at h
      obtain ⟨e, hfault⟩ := h hattrs
      exact ⟨attrs, last, [], e, rfl, hattrs, hfault⟩
    · obtain ⟨before, pair, after, e, rfl, hbefore, hfault⟩ := ih hattrs
      exact ⟨before, pair, after ++ [last], e, by simp, hbefore, hfault⟩

theorem Takes.of_append {after : List (String × Attr Node)} (h : Takes kind (before ++ after)) :
    Takes kind before := by
  refine ⟨?_, fun pair hpair => h.suits pair (List.mem_append_left _ hpair)⟩
  have hdistinct := h.distinct
  rw [List.map_append] at hdistinct
  exact hdistinct.of_append_left

/-- No value is at fault exactly if all can be taken. -/
theorem faultless_iff_takes : Faultless kind attrs ↔ Takes kind attrs := by
  refine ⟨fun h => ?_, ?_⟩
  · by_contra hattrs
    obtain ⟨before, pair, after, e, heq, -, hfault⟩ := exists_first_fault hattrs
    exact h before pair after e heq hfault
  · rintro h before pair after e rfl hfault
    have hpair : Takes kind (before ++ [pair]) := by
      rw [← List.singleton_append, ← List.append_assoc] at h
      exact h.of_append
    exact (takes_concat_iff.1 hpair).2 e hfault

/-! ### Taking values -/

/-- What has been taken of the values before: under their names, and under no others, the stored
forms of the values. -/
structure Taken (kind : Kind) (before given : List (String × Attr Node)) : Prop where
  absent : ∀ name, given.lookup name = none ↔ name ∉ before.map Prod.fst
  present : ∀ pair ∈ before, ∀ spec ∈ kind.attrs, spec.name = pair.1 →
    given.lookup pair.1 = some (pair.2.stored spec)

/-- A value at fault ends the scan, and what comes behind it is not looked at. There is one case for
each kind of fault, in the order in which the scan looks for them. -/
theorem Taken.collect_fault {rest : List (String × Attr Node)} (h : Taken kind before given)
    (hfault : Fault kind before pair e) : collect kind given (pair :: rest) = .error e := by
  cases hfault with
  | unknown hunknown => rw [collect, Kind.attr?_eq_none hunknown]
  | @repeated name value hdeclared hmem =>
    obtain ⟨spec, hspec, rfl⟩ := Kind.mem_attrNames.1 hdeclared
    have hgiven : (given.lookup spec.name).isSome = true := by
      rw [Option.isSome_iff_ne_none, ne_eq, h.absent, not_not]
      exact hmem
    rw [collect, Kind.attr?_name hspec]
    exact if_pos hgiven
  | @misfit spec value hdeclared hnew hmisfit =>
    have hgiven : given.lookup spec.name = none := (h.absent _).2 hnew
    rw [collect, Kind.attr?_name hdeclared]
    simp only [hgiven, Attr.conform_eq_error hmisfit, Option.isSome_none, Bool.false_eq_true,
      if_false]

/-- Any other value is taken. The scan goes on behind it as if it had started with one value
more. -/
theorem Taken.collect_step (h : Taken kind before given) (hpair : Takes kind (before ++ [pair])) :
    ∃ given', (∀ rest, collect kind given (pair :: rest) = collect kind given' rest) ∧
      Taken kind (before ++ [pair]) given' := by
  obtain ⟨name, value⟩ := pair
  obtain ⟨hbefore, hfault⟩ := takes_concat_iff.1 hpair
  obtain ⟨spec, hspec, rfl, hvalue⟩ := hpair.suits (name, value) (by simp)
  have hnew : spec.name ∉ before.map Prod.fst := fun hmem =>
    hfault _ (.repeated (Kind.mem_attrNames.2 ⟨spec, hspec, rfl⟩) hmem)
  have hgiven : given.lookup spec.name = none := (h.absent _).2 hnew
  have hconform : value.conform kind spec = .ok (value.stored spec) :=
    Attr.conform_eq_ok_iff.2 ⟨Attr.fits_iff.2 hvalue, rfl⟩
  -- What has been given is a list of names with values, and the new one is put in front.
  refine ⟨(spec.name, value.stored spec) :: given, fun rest => ?_, fun other => ?_, ?_⟩
  · rw [collect, Kind.attr?_name hspec]
    simp only [hgiven, hconform, Option.isSome_none, Bool.false_eq_true, if_false]
  · rw [List.lookup_cons, List.map_append, List.mem_append, not_or, ← h.absent other]
    by_cases heq : other = spec.name
    · simp [heq]
    · simp [heq, beq_false_of_ne heq]
  · refine List.forall_mem_append.2 ⟨fun pair hmem => ?_, fun pair hmem => ?_⟩
    · have hne : pair.1 ≠ spec.name := fun heq => hnew (heq ▸ List.mem_map_of_mem hmem)
      rw [List.lookup_cons, beq_false_of_ne hne]
      exact h.present pair hmem
    · rw [List.mem_singleton.1 hmem]
      intro spec' hspec' hname
      rw [Kind.attr_ext hspec' hspec hname, List.lookup_cons_self]

/-- Values that can be taken are taken, whatever comes behind them. -/
theorem Takes.collect (h : Takes kind attrs) :
    ∃ given, (∀ rest, collect kind [] (attrs ++ rest) = collect kind given rest) ∧
      Taken kind attrs given := by
  induction attrs using List.reverseRecOn with
  | nil => exact ⟨[], fun _ => rfl, fun _ => by simp, nofun⟩
  | append_singleton attrs pair ih =>
    obtain ⟨given, hcollect, hgiven⟩ := ih (takes_concat_iff.1 h).1
    obtain ⟨given', hstep, hgiven'⟩ := hgiven.collect_step h
    refine ⟨given', fun rest => ?_, hgiven'⟩
    rw [List.append_assoc, hcollect, List.singleton_append, hstep]

/-! ### Arranging values -/

/-- The first declared attribute that no value has been given for decides about the error. -/
theorem arrange_eq_error_iff {specs : List AttrSpec} :
    arrange kind given specs = .error e ↔ ∃ declared spec rest, specs = declared ++ spec :: rest ∧
      (∀ s ∈ declared, given.lookup s.name ≠ none) ∧ given.lookup spec.name = none ∧
      e = .missingAttribute kind spec.name := by
  induction specs with
  | nil => simp [arrange]
  | cons first specs ih =>
    rw [arrange]
    cases hfirst : given.lookup first.name with
    | none =>
      refine ⟨fun h => ?_, ?_⟩
      · exact ⟨[], first, specs, rfl, by simp, hfirst, (Except.error.inj h).symm⟩
      · rintro ⟨declared, spec, rest, h, hdeclared, -, rfl⟩
        -- Nothing is declared before the first attribute.
        cases declared with
        | nil => rw [(List.cons.inj h).1]
        | cons s declared =>
          obtain ⟨rfl, -⟩ := List.cons.inj h
          exact absurd hfirst (hdeclared _ List.mem_cons_self)
    | some value =>
      show (arrange kind given specs).map (value :: ·) = .error e ↔ _
      rw [map_eq_error_iff, ih]
      refine ⟨?_, ?_⟩
      · rintro ⟨declared, spec, rest, rfl, hdeclared, hspec, he⟩
        refine ⟨first :: declared, spec, rest, rfl, ?_, hspec, he⟩
        exact List.forall_mem_cons.2 ⟨by rw [hfirst]; exact Option.some_ne_none _, hdeclared⟩
      · rintro ⟨declared, spec, rest, h, hdeclared, hspec, he⟩
        cases declared with
        | nil =>
          obtain ⟨rfl, -⟩ := List.cons.inj h
          exact absurd (hfirst.symm.trans hspec) (Option.some_ne_none _)
        | cons s declared =>
          obtain ⟨-, rfl⟩ := List.cons.inj h
          exact ⟨declared, spec, rest, rfl, (List.forall_mem_cons.1 hdeclared).2, hspec, he⟩

/-- Once all values have been taken, they only have to be arranged. -/
theorem Takes.ofAttrs (h : Takes kind attrs) : ∃ given, Taken kind attrs given ∧
    ofAttrs kind attrs = (arrange kind given kind.attrs).map (Node.mk kind) := by
  obtain ⟨given, hcollect, hgiven⟩ := h.collect
  refine ⟨given, hgiven, ?_⟩
  have hall : Node.collect kind [] attrs = .ok given := by
    rw [← List.append_nil attrs, hcollect, Node.collect]
  rw [Node.ofAttrs, hall]
  show (arrange kind given kind.attrs >>= fun values => .ok (Node.mk kind values)) = _
  cases arrange kind given kind.attrs with
  | error e => rfl
  | ok values => rfl

/-- The first value at fault decides about the error. Whether an attribute is missing is not asked
before all values have been taken. -/
theorem Takes.ofAttrs_fault {after : List (String × Attr Node)} (h : Takes kind before)
    (hfault : Fault kind before pair e) :
    Node.ofAttrs kind (before ++ pair :: after) = .error e := by
  obtain ⟨given, hcollect, hgiven⟩ := h.collect
  rw [Node.ofAttrs, hcollect, hgiven.collect_fault hfault]
  rfl

/-! ### Which lists make a node -/

/-- A list makes a node exactly if all its values can be taken and no attribute is left without
one. -/
theorem exists_ofAttrs_iff_takes :
    (∃ n, ofAttrs kind attrs = .ok n) ↔ Takes kind attrs ∧ kind.attrNames ⊆ attrs.map Prod.fst := by
  refine ⟨?_, ?_⟩
  · rintro ⟨n, hn⟩
    have htakes : Takes kind attrs := by
      by_contra hattrs
      obtain ⟨before, pair, after, e, rfl, hbefore, hfault⟩ := exists_first_fault hattrs
      rw [hbefore.ofAttrs_fault hfault] at hn
      exact absurd hn nofun
    obtain ⟨given, hgiven, hnode⟩ := htakes.ofAttrs
    rw [hnode, map_eq_ok_iff] at hn
    obtain ⟨values, hvalues, -⟩ := hn
    refine ⟨htakes, fun name hname => ?_⟩
    obtain ⟨spec, hspec, rfl⟩ := Kind.mem_attrNames.1 hname
    obtain ⟨value, -, hlookup⟩ := forall₂_exists_right (arrange_eq_ok_iff.1 hvalues) hspec
    by_contra habsent
    rw [(hgiven.absent _).2 habsent] at hlookup
    exact absurd hlookup nofun
  · rintro ⟨htakes, hall⟩
    obtain ⟨given, hgiven, hnode⟩ := htakes.ofAttrs
    have hfound : ∀ spec ∈ kind.attrs, ∃ value, given.lookup spec.name = some value := by
      intro spec hspec
      refine Option.ne_none_iff_exists'.1 fun hnone => (hgiven.absent _).1 hnone ?_
      exact hall (Kind.mem_attrNames.2 ⟨spec, hspec, rfl⟩)
    -- Every attribute finds a value, so arranging them comes to its end.
    obtain ⟨values, hvalues⟩ := exists_forall₂ hfound
    rw [hnode]
    exact ⟨⟨kind, values⟩, map_eq_ok_iff.2 ⟨values, arrange_eq_ok_iff.2 hvalues, rfl⟩⟩

/-- A list makes a node exactly if it has a suitable value for each attribute, in some order. -/
theorem exists_ofAttrs_iff :
    (∃ n, ofAttrs kind attrs = .ok n) ↔ (attrs.map Prod.fst).Perm kind.attrNames ∧
      ∀ pair ∈ attrs, ∀ spec ∈ kind.attrs, spec.name = pair.1 → pair.2.Suits spec := by
  rw [exists_ofAttrs_iff_takes]
  refine ⟨?_, ?_⟩
  · rintro ⟨htakes, hall⟩
    refine ⟨(List.perm_ext_iff_of_nodup htakes.distinct kind.nodup_attrNames).2 fun name =>
      ⟨fun hname => ?_, fun hname => hall hname⟩, fun pair hpair spec hspec hname => ?_⟩
    · obtain ⟨pair, hpair, rfl⟩ := List.mem_map.1 hname
      obtain ⟨spec, hspec, hname, -⟩ := htakes.suits pair hpair
      exact Kind.mem_attrNames.2 ⟨spec, hspec, hname⟩
    · obtain ⟨spec', hspec', hname', hsuits⟩ := htakes.suits pair hpair
      exact Kind.attr_ext hspec' hspec (hname'.trans hname.symm) ▸ hsuits
  · rintro ⟨hperm, hsuits⟩
    refine ⟨⟨hperm.nodup_iff.2 kind.nodup_attrNames, fun pair hpair => ?_⟩, hperm.symm.subset⟩
    have hname : pair.1 ∈ kind.attrNames := hperm.subset (List.mem_map_of_mem hpair)
    obtain ⟨spec, hspec, hname⟩ := Kind.mem_attrNames.1 hname
    exact ⟨spec, hspec, hname, hsuits pair hpair spec hspec hname⟩

/-! ### What the node holds -/

/-- A node of the kind has one value for each attribute, and under each name the value that was
given. -/
structure Holds (kind : Kind) (attrs : List (String × Attr Node)) (n : Node) : Prop where
  ofKind : n.kind = kind
  count : n.attrs.length = kind.attrs.length
  values : ∀ pair ∈ attrs, ∃ spec ∈ kind.attrs, spec.name = pair.1 ∧
    n.get? pair.1 = some (pair.2.stored spec)

theorem get?_getElem (n : Node) {i : Nat} (hi : i < n.kind.attrs.length) :
    n.get? n.kind.attrs[i].name = n.attrs[i]? := by
  rw [get?, Kind.attrIndex?_getElem hi, Option.bind_some]

/-- The node that is made holds the values, each at the place of its attribute. -/
theorem holds_of_ofAttrs {n : Node} (h : ofAttrs kind attrs = .ok n) : Holds kind attrs n := by
  obtain ⟨htakes, -⟩ := exists_ofAttrs_iff_takes.1 ⟨n, h⟩
  obtain ⟨given, hgiven, hnode⟩ := htakes.ofAttrs
  rw [hnode, map_eq_ok_iff] at h
  obtain ⟨values, hvalues, rfl⟩ := h
  rw [arrange_eq_ok_iff] at hvalues
  refine ⟨rfl, hvalues.length_eq.symm, fun pair hpair => ?_⟩
  obtain ⟨spec, hspec, hname, -⟩ := htakes.suits pair hpair
  refine ⟨spec, hspec, hname, ?_⟩
  -- The value stands where its attribute is declared.
  obtain ⟨i, hi, rfl⟩ := List.getElem_of_mem hspec
  have hi' : i < values.length := hvalues.length_eq ▸ hi
  have hlookup : given.lookup kind.attrs[i].name = some values[i] :=
    (List.forall₂_iff_get.1 hvalues).2 i hi hi'
  calc (Node.mk kind values).get? pair.1
      = values[i]? := by rw [← hname]; exact get?_getElem _ hi
    _ = given.lookup pair.1 := by rw [List.getElem?_eq_getElem hi', ← hlookup, hname]
    _ = some (pair.2.stored kind.attrs[i]) := hgiven.present pair hpair _ hspec hname

/-- There is only one such node if every attribute is named. -/
theorem Holds.unique {m n : Node} (hm : Holds kind attrs m) (hn : Holds kind attrs n)
    (hall : kind.attrNames ⊆ attrs.map Prod.fst) : m = n := by
  obtain ⟨k, as⟩ := m
  obtain ⟨l, bs⟩ := n
  obtain rfl : k = kind := hm.ofKind
  obtain rfl : l = k := hn.ofKind
  congr 1
  refine List.ext_getElem? fun i => ?_
  by_cases hi : i < l.attrs.length
  · have hname : l.attrs[i].name ∈ l.attrNames :=
      Kind.mem_attrNames.2 ⟨_, List.getElem_mem hi, rfl⟩
    obtain ⟨pair, hpair, hpairName⟩ := List.mem_map.1 (hall hname)
    obtain ⟨spec, hspec, hspecName, has⟩ := hm.values pair hpair
    obtain ⟨spec', hspec', hspecName', hbs⟩ := hn.values pair hpair
    obtain rfl := Kind.attr_ext hspec hspec' (hspecName.trans hspecName'.symm)
    calc as[i]? = (Node.mk l as).get? l.attrs[i].name := (get?_getElem (Node.mk l as) hi).symm
      _ = (Node.mk l bs).get? l.attrs[i].name := by rw [← hpairName, has, hbs]
      _ = bs[i]? := get?_getElem (Node.mk l bs) hi
  · rw [List.getElem?_eq_none (by rw [hm.count]; omega),
      List.getElem?_eq_none (by rw [hn.count]; omega)]

/-- The node does not depend on the order of the list. -/
theorem ofAttrs_reorder {attrs' : List (String × Attr Node)} {n : Node} (hperm : attrs'.Perm attrs)
    (h : ofAttrs kind attrs = .ok n) : ofAttrs kind attrs' = .ok n := by
  obtain ⟨hnames, hsuits⟩ := exists_ofAttrs_iff.1 ⟨n, h⟩
  have hexists : ∃ n', ofAttrs kind attrs' = .ok n' := by
    refine exists_ofAttrs_iff.2 ⟨(hperm.map Prod.fst).trans hnames, fun pair hpair => ?_⟩
    exact hsuits pair (hperm.subset hpair)
  obtain ⟨n', hn'⟩ := hexists
  have hholds : Holds kind attrs n' := by
    obtain ⟨hkind, hcount, hvalues⟩ := holds_of_ofAttrs hn'
    exact ⟨hkind, hcount, fun pair hpair => hvalues pair (hperm.symm.subset hpair)⟩
  rw [hn', hholds.unique (holds_of_ofAttrs h) hnames.symm.subset]

/-! ### The error -/

/-- The error of the first value at fault. -/
def FirstFault (kind : Kind) (attrs : List (String × Attr Node)) (e : NodeError) : Prop :=
  ∃ before pair after, attrs = before ++ pair :: after ∧ Faultless kind before ∧
    Fault kind before pair e

/-- No value is at fault, and the error names the first declared attribute that has none. -/
def FirstMissing (kind : Kind) (attrs : List (String × Attr Node)) (e : NodeError) : Prop :=
  Faultless kind attrs ∧ ∃ declared spec rest, kind.attrs = declared ++ spec :: rest ∧
    (∀ s ∈ declared, s.name ∈ attrs.map Prod.fst) ∧ spec.name ∉ attrs.map Prod.fst ∧
    e = .missingAttribute kind spec.name

/-- **Which error it is.** Values are taken before it is asked which ones are missing, so a value at
fault goes before an attribute without one. -/
theorem ofAttrs_eq_error_iff :
    ofAttrs kind attrs = .error e ↔ FirstFault kind attrs e ∨ FirstMissing kind attrs e := by
  by_cases htakes : Takes kind attrs
  · -- Nothing is at fault, so that the error can only come from arranging the values.
    have hfault : ¬ FirstFault kind attrs e := by
      rintro ⟨before, pair, after, heq, -, hfault⟩
      exact faultless_iff_takes.2 htakes before pair after e heq hfault
    obtain ⟨given, hgiven, hnode⟩ := htakes.ofAttrs
    rw [hnode, map_eq_error_iff, arrange_eq_error_iff, or_iff_right hfault, FirstMissing,
      and_iff_right (faultless_iff_takes.2 htakes)]
    simp only [ne_eq, hgiven.absent, not_not]
  · obtain ⟨before, pair, after, e', rfl, hbefore, hfault⟩ := exists_first_fault htakes
    rw [hbefore.ofAttrs_fault hfault]
    refine ⟨?_, ?_⟩
    · intro h
      obtain rfl := Except.error.inj h
      exact .inl ⟨before, pair, after, rfl, faultless_iff_takes.2 hbefore, hfault⟩
    · rintro (⟨before', pair', after', heq, hbefore', hfault'⟩ | ⟨hfaultless, -⟩)
      · rw [← hbefore.ofAttrs_fault hfault, heq,
          (faultless_iff_takes.1 hbefore').ofAttrs_fault hfault']
      · exact absurd (faultless_iff_takes.1 hfaultless) htakes

/-- **Making a node from named values.** This succeeds exactly if the names are those of the
attributes, in some order, and each value suits its attribute. The node then holds the values under
their names, a missing list as the empty list, and every order of the values makes the same node.
Otherwise the error is that of the first value whose name is unknown or has come before, or which
does not suit its attribute; if there is none, the first attribute without a value is missing. -/
theorem ofAttrs_exact (kind : Kind) (attrs : List (String × Attr Node)) :
    ((∃ n, ofAttrs kind attrs = .ok n) ↔ (attrs.map Prod.fst).Perm kind.attrNames ∧
      ∀ pair ∈ attrs, ∀ spec ∈ kind.attrs, spec.name = pair.1 → pair.2.Suits spec) ∧
    (∀ n, ofAttrs kind attrs = .ok n → Holds kind attrs n ∧
      ∀ attrs', attrs'.Perm attrs → ofAttrs kind attrs' = .ok n) ∧
    ∀ e, ofAttrs kind attrs = .error e ↔ FirstFault kind attrs e ∨ FirstMissing kind attrs e := by
  refine ⟨exists_ofAttrs_iff, fun n hn => ?_, fun e => ofAttrs_eq_error_iff⟩
  exact ⟨holds_of_ofAttrs hn, fun attrs' hperm => ofAttrs_reorder hperm hn⟩

/-- A structure without declarations is the same in both orders, and holds an empty list of them. A
text in the place of the declarations is refused before the unknown attribute behind it, and the
missing name is not noticed. -/
theorem ofAttrs_exact_struct :
    ofAttrs .struct [("decls", .none), ("name", .text "s")] =
      .ok ⟨.struct, [.text "s", .list []]⟩ ∧
    ofAttrs .struct [("name", .text "s"), ("decls", .none)] =
      .ok ⟨.struct, [.text "s", .list []]⟩ ∧
    ofAttrs .struct [("decls", .text "x"), ("size", .none)] =
      .error (.attrShape .struct (.many "decls")) := by
  obtain ⟨-, hok, -⟩ := ofAttrs_exact .struct [("decls", .none), ("name", .text "s")]
  obtain ⟨-, -, herror⟩ := ofAttrs_exact .struct [("decls", .text "x"), ("size", .none)]
  have hmisfit : ¬ (Attr.text "x" : Attr Node).Suits (.many "decls") := by
    rintro (h | ⟨items, h⟩)
    · exact absurd h nofun
    · exact absurd h nofun
  refine ⟨rfl, (hok _ rfl).2 _ (.swap _ _ _), (herror _).2 (.inl ⟨[], _, _, rfl, ?_, ?_⟩)⟩
  · rintro before pair after e h -
    exact absurd h (by simp)
  · exact .misfit (by decide) (by simp) hmisfit

end Node

end TypedSyntax
