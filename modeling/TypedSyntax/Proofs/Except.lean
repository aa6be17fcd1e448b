import Mathlib.Data.List.Forall2

/-!
# How a computation succeeds or fails

A computation in `Except` that succeeds was put together from computations that succeed. The
lemmas here take a success apart, one for each way of putting together: sequencing
(`bind_eq_ok_iff`), a function on the result or on the error (`map_eq_ok_iff`,
`mapError_eq_ok_iff`), and one computation for each item of a list (`mapM_eq_ok_iff`,
`forM_eq_ok_iff`). With them no later proof unfolds the monad.

For failures there is mostly no need to go back: what the parts can fail with is what the whole can
fail with, and a function on the result changes none of it (`map_eq_error_iff`). `FailsOnly` says
that every error of a computation has a property, and has one rule for each way of putting together.
Where it matters which part fails, a loop fails where its first failing item does
(`forM_eq_error_iff`).
`EndAlike` compares two computations in the same manner: they fail with one error, or succeed with
related results.
-/

namespace TypedSyntax

variable {ε ε' α β γ : Type}

theorem exists_ok_of_isOk {x : Except ε α} (h : x.isOk = true) : ∃ a, x = .ok a := by
  cases x with
  | error e => exact absurd h Bool.false_ne_true
  | ok a => exact ⟨a, rfl⟩

/-- A sequence succeeds exactly if its first part does, and the second one with what the first one
gives. -/
theorem bind_eq_ok_iff {x : Except ε α} {f : α → Except ε β} {b : β} :
    (x >>= f) = .ok b ↔ ∃ a, x = .ok a ∧ f a = .ok b := by
  cases x with
  | error e => simp [bind, Except.bind]
  | ok a => simp [bind, Except.bind]

theorem map_eq_ok_iff {x : Except ε α} {f : α → β} {b : β} :
    x.map f = .ok b ↔ ∃ a, x = .ok a ∧ f a = b := by
  cases x with
  | error e => simp [Except.map]
  | ok a => simp [Except.map]

theorem map_eq_error_iff {x : Except ε α} {f : α → β} {e : ε} :
    x.map f = .error e ↔ x = .error e := by
  cases x with
  | error e' => simp [Except.map]
  | ok a => simp [Except.map]

theorem mapError_eq_ok_iff {x : Except ε α} {f : ε → ε'} {a : α} :
    x.mapError f = .ok a ↔ x = .ok a := by
  cases x with
  | error e => simp [Except.mapError]
  | ok b => simp [Except.mapError]

/-- A list of computations succeeds exactly when each one does, and gives their results in
order. -/
theorem mapM_eq_ok_iff {f : α → Except ε β} {xs : List α} {ys : List β} :
    xs.mapM f = .ok ys ↔ List.Forall₂ (fun x y => f x = .ok y) xs ys := by
  induction xs generalizing ys with
  | nil =>
    rw [List.mapM_nil, List.forall₂_nil_left_iff]
    exact ⟨fun h => (Except.ok.inj h).symm, fun h => congrArg Except.ok h.symm⟩
  | cons x xs ih =>
    -- Both sides say: something for `x`, then something for the rest.
    simp only [List.mapM_cons, bind_eq_ok_iff, List.forall₂_cons_left_iff, ← ih]
    constructor
    · rintro ⟨y, hy, zs, hzs, h⟩
      exact ⟨y, zs, hy, hzs, (Except.ok.inj h).symm⟩
    · rintro ⟨y, zs, hy, hzs, rfl⟩
      exact ⟨y, hy, zs, hzs, rfl⟩

/-- Every item of the first list has a partner in the second one. -/
theorem forall₂_exists_right {R : α → β → Prop} {xs : List α} {ys : List β}
    (h : List.Forall₂ R xs ys) {x : α} (hx : x ∈ xs) : ∃ y ∈ ys, R x y := by
  induction h with
  | nil => exact absurd hx List.not_mem_nil
  | cons hr _ ih =>
    rcases List.mem_cons.1 hx with rfl | hx
    · exact ⟨_, List.mem_cons_self, hr⟩
    · obtain ⟨y, hy, hr⟩ := ih hx
      exact ⟨y, List.mem_cons_of_mem _ hy, hr⟩

theorem forall₂_exists_left {R : α → β → Prop} {xs : List α} {ys : List β}
    (h : List.Forall₂ R xs ys) {y : β} (hy : y ∈ ys) : ∃ x ∈ xs, R x y :=
  forall₂_exists_right (R := flip R) h.flip hy

/-- Related items stand in their lists. -/
theorem forall₂_flip_mem {R : α → β → Prop} {xs : List α} {ys : List β}
    (h : List.Forall₂ R xs ys) : List.Forall₂ (fun y x => x ∈ xs ∧ R x y) ys xs := by
  have hmem : ∀ x ∈ xs, x ∈ xs := fun _ hx => hx
  exact ((List.forall₂_and_left xs ys).2 ⟨hmem, h⟩).flip

/-- Two relations between lists, one behind the other, are one. -/
theorem forall₂_comp {R : α → β → Prop} {S : β → γ → Prop} {T : α → γ → Prop} {xs : List α}
    {ys : List β} {zs : List γ} (hR : List.Forall₂ R xs ys) (hS : List.Forall₂ S ys zs)
    (h : ∀ x y z, R x y → S y z → T x z) : List.Forall₂ T xs zs := by
  induction hR generalizing zs with
  | nil =>
    cases hS
    exact .nil
  | cons hr _ ih =>
    cases hS with
    | cons hs hS => exact .cons (h _ _ _ hr hs) (ih hS)

/-- If every item has a partner, there is a list of partners. -/
theorem exists_forall₂ {R : α → β → Prop} {xs : List α} (h : ∀ x ∈ xs, ∃ y, R x y) :
    ∃ ys, List.Forall₂ R xs ys := by
  induction xs with
  | nil => exact ⟨[], .nil⟩
  | cons x xs ih =>
    obtain ⟨y, hy⟩ := h x List.mem_cons_self
    obtain ⟨ys, hys⟩ := ih fun x hx => h x (List.mem_cons_of_mem _ hx)
    exact ⟨y :: ys, .cons hy hys⟩

/-- If the results for two items are equal exactly when a function takes the same value on the
items, the same goes for two lists of results. -/
theorem forall₂_eq_iff {R : α → β → Prop} {f : α → γ} {xs xs' : List α} {ys ys' : List β}
    (h : List.Forall₂ R xs ys) (h' : List.Forall₂ R xs' ys')
    (hR : ∀ x ∈ xs, ∀ x' ∈ xs', ∀ y y', R x y → R x' y' → (y = y' ↔ f x = f x')) :
    ys = ys' ↔ xs.map f = xs'.map f := by
  induction h generalizing xs' ys' with
  | nil =>
    cases h' with
    | nil => exact ⟨fun _ => rfl, fun _ => rfl⟩
    | cons => exact ⟨nofun, nofun⟩
  | @cons x y xs ys hxy _ ih =>
    cases h' with
    | nil => exact ⟨nofun, nofun⟩
    | @cons x' y' xs' ys' hxy' htail' =>
      have hhead := hR x List.mem_cons_self x' List.mem_cons_self y y' hxy hxy'
      have htail := ih htail' fun z hz z' hz' =>
        hR z (List.mem_cons_of_mem _ hz) z' (List.mem_cons_of_mem _ hz')
      rw [List.map_cons, List.map_cons, List.cons.injEq, List.cons.injEq, hhead, htail]

/-- A loop succeeds exactly if every round of it does. -/
theorem forM_eq_ok_iff {f : α → Except ε Unit} {xs : List α} :
    xs.forM f = .ok () ↔ ∀ x ∈ xs, f x = .ok () := by
  induction xs with
  | nil => exact ⟨fun _ x hx => absurd hx (List.not_mem_nil), fun _ => rfl⟩
  | cons x xs ih =>
    -- The loop over a non-empty list is a sequence, though not written as one.
    change (f x >>= fun _ => xs.forM f) = .ok () ↔ _
    rw [bind_eq_ok_iff, List.forall_mem_cons, ← ih]
    exact ⟨fun ⟨_, hx, hxs⟩ => ⟨hx, hxs⟩, fun ⟨hx, hxs⟩ => ⟨(), hx, hxs⟩⟩

/-! ### Failures -/

/-- A loop fails with the error of the first item that fails. -/
theorem forM_eq_error_iff {f : α → Except ε Unit} {xs : List α} {e : ε} :
    xs.forM f = .error e ↔ ∃ before x after, xs = before ++ x :: after ∧
      (∀ y ∈ before, f y = .ok ()) ∧ f x = .error e := by
  induction xs with
  | nil =>
    constructor
    · exact nofun
    · rintro ⟨before, x, after, hsplit, -⟩
      exact absurd hsplit.symm (List.append_ne_nil_of_right_ne_nil _ (List.cons_ne_nil _ _))
  | cons x xs ih =>
    change (f x >>= fun _ => xs.forM f) = .error e ↔ _
    cases hx : f x with
    | error e' =>
      -- Nothing comes before the first item, so the error is its own.
      change Except.error e' = .error e ↔ _
      constructor
      · intro he
        exact ⟨[], x, xs, rfl, fun y hy => absurd hy List.not_mem_nil, hx.trans he⟩
      · rintro ⟨before, y, after, hsplit, hbefore, hy⟩
        cases before with
        | nil =>
          obtain ⟨rfl, -⟩ := List.cons.inj hsplit
          exact hx.symm.trans hy
        | cons z before =>
          obtain ⟨rfl, -⟩ := List.cons.inj hsplit
          exact absurd (hx.symm.trans (hbefore x List.mem_cons_self)) nofun
    | ok u =>
      -- The first item passes, so it stands in front of whatever fails.
      change xs.forM f = .error e ↔ _
      rw [ih]
      constructor
      · rintro ⟨before, y, after, rfl, hbefore, hy⟩
        exact ⟨x :: before, y, after, rfl, List.forall_mem_cons.2 ⟨hx, hbefore⟩, hy⟩
      · rintro ⟨before, y, after, hsplit, hbefore, hy⟩
        cases before with
        | nil =>
          obtain ⟨rfl, -⟩ := List.cons.inj hsplit
          exact absurd (hx.symm.trans hy) nofun
        | cons z before =>
          obtain ⟨rfl, rfl⟩ := List.cons.inj hsplit
          exact ⟨before, y, after, rfl, (List.forall_mem_cons.1 hbefore).2, hy⟩

/-- Every error of a computation has a property. -/
def FailsOnly (P : ε → Prop) (x : Except ε α) : Prop :=
  ∀ e, x = .error e → P e

namespace FailsOnly

variable {P : ε → Prop} {x : Except ε α}

theorem ok (a : α) : FailsOnly P (.ok a) :=
  fun _ h => nomatch h

theorem error {e : ε} (h : P e) : FailsOnly P (.error e : Except ε α) :=
  fun _ he => Except.error.inj he ▸ h

theorem bind {f : α → Except ε β} (hx : FailsOnly P x)
    (hf : ∀ a, x = .ok a → FailsOnly P (f a)) : FailsOnly P (x >>= f) := by
  cases x with
  | error e => exact .error (hx e rfl)
  | ok a => exact hf a rfl

theorem map {f : α → β} (hx : FailsOnly P x) : FailsOnly P (x.map f) := by
  cases x with
  | error e => exact .error (hx e rfl)
  | ok a => exact .ok (f a)

theorem mapM {f : α → Except ε β} {xs : List α} (h : ∀ x ∈ xs, FailsOnly P (f x)) :
    FailsOnly P (xs.mapM f) := by
  induction xs with
  | nil => exact .ok []
  | cons x xs ih =>
    rw [List.mapM_cons]
    refine .bind (h x List.mem_cons_self) fun _ _ => ?_
    exact .bind (ih fun y hy => h y (List.mem_cons_of_mem _ hy)) fun _ _ => .ok _

end FailsOnly

/-! ### Two computations -/

/-- Two computations fail with the same error, or both succeed and their results are related. -/
inductive EndAlike (R : α → β → Prop) : Except ε α → Except ε β → Prop where
  | error (e : ε) : EndAlike R (.error e) (.error e)
  | ok {a : α} {b : β} (h : R a b) : EndAlike R (.ok a) (.ok b)

namespace EndAlike

variable {δ : Type} {R : α → β → Prop} {S : γ → δ → Prop} {x : Except ε α} {y : Except ε β}

/-- A computation ends like itself. -/
theorem refl {R : α → α → Prop} (h : ∀ a, R a a) (x : Except ε α) : EndAlike R x x := by
  cases x with
  | error e => exact .error e
  | ok a => exact .ok (h a)

theorem error_of_eq {e e' : ε} (h : e = e') : EndAlike R (.error e) (.error e') :=
  h ▸ .error e

theorem imp {R' : α → β → Prop} (h : ∀ a b, R a b → R' a b) (hx : EndAlike R x y) :
    EndAlike R' x y := by
  cases hx with
  | error e => exact .error e
  | ok hab => exact .ok (h _ _ hab)

theorem bind {f : α → Except ε γ} {g : β → Except ε δ} (hx : EndAlike R x y)
    (hf : ∀ a b, R a b → EndAlike S (f a) (g b)) : EndAlike S (x >>= f) (y >>= g) := by
  cases hx with
  | error e => exact .error e
  | ok h => exact hf _ _ h

theorem mapM {f : γ → Except ε α} {g : γ → Except ε β} {xs : List γ}
    (h : ∀ x ∈ xs, EndAlike R (f x) (g x)) :
    EndAlike (List.Forall₂ R) (xs.mapM f) (xs.mapM g) := by
  induction xs with
  | nil => exact .ok .nil
  | cons x xs ih =>
    rw [List.mapM_cons, List.mapM_cons]
    refine .bind (h x List.mem_cons_self) fun a b hab => ?_
    refine .bind (ih fun y hy => h y (List.mem_cons_of_mem _ hy)) fun as bs hs => ?_
    exact .ok (.cons hab hs)

end EndAlike

end TypedSyntax
