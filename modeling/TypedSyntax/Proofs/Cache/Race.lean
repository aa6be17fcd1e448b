import Mathlib.Logic.Function.Basic
import Mathlib.Logic.Relation
import TypedSyntax.Proofs.Cache.Recency
import TypedSyntax.Proofs.Cache.Transparency

/-!
# Requests that run side by side

A request for a converter is not one step. A thread looks into the cache, and if it finds nothing it
makes a converter of its own, while other threads go on; only then does it look again, and store
what it has made if there still is nothing. A `Race` is a session with any number of threads, each
somewhere in such a request, and `Race.Step` is one step of one of them: `Cache.lookup`,
`Cache.make` or `Cache.store`. The cache may be cleared and grammars may be entered at any time.

* `Race.requests_share` — with any lawful store, in every race that can come about, the cache has no
  identity twice and is never too large. A request that is granted is given a converter for its own
  grammar, which is the one that stands in the cache right after its last step. As long as it stands
  there, all requests for the grammar are given this very one.

Several threads may have made converters for one grammar, of which at most one is stored. So the
invariant (`Race.Sound`) speaks of the cache and of what the threads hold in hands. What a step does
to the cache is said once, by `Cache.Change`: the entries are old ones, but for one that comes in
under an identity that had none, and this one is what a thread has made (`Race.Step.change`).
-/

namespace TypedSyntax

/-! ### Threads -/

/-- Where a thread stands in a request. -/
inductive Phase where
  /-- It has no request. -/
  | idle
  /-- It has looked for a converter and found none. -/
  | missed (g : Handle)
  /-- It has made a converter. -/
  | made (g : Handle) (new : CachedConverter)

/-- The end of a request: who has asked for what, and what was given. -/
structure Reply (ι : Type) where
  thread : ι
  handle : Handle
  result : Except ConvertError CachedConverter

/-- A session in which threads ask for converters side by side. -/
structure Race (ι σ : Type) extends Session σ where
  phase : ι → Phase := fun _ => .idle

namespace Race

open Function (update)

variable {ι σ : Type} [RecencyStore σ UInt64 CachedConverter]

/-- What can happen in a race, and the reply if a request comes to its end. Looking and storing see
the cache as it is at that moment; nothing is known about it from one step of a thread to the
next. -/
inductive Step [DecidableEq ι] : Race ι σ → Option (Reply ι) → Race ι σ → Prop where
  /-- A grammar is entered. -/
  | enter (s : Race ι σ) (g : Grammar) :
      Step s none { s with
        catalogue := (s.catalogue.enter g).2
        handles := (s.catalogue.enter g).1 :: s.handles }
  /-- A thread looks for a converter and finds it. -/
  | hit {s : Race ι σ} {i : ι} {g : Handle} {c : CachedConverter} {cache : Cache σ}
      (hi : s.phase i = .idle) (hg : g ∈ s.handles) (h : s.cache.lookup g = (some c, cache)) :
      Step s (some ⟨i, g, .ok c⟩) { s with cache }
  /-- A thread looks for a converter and finds none. -/
  | miss {s : Race ι σ} {i : ι} {g : Handle} {cache : Cache σ} (hi : s.phase i = .idle)
      (hg : g ∈ s.handles) (h : s.cache.lookup g = (none, cache)) :
      Step s none { s with cache, phase := update s.phase i (.missed g) }
  /-- A thread cannot make a converter. -/
  | refuse {s : Race ι σ} {i : ι} {g : Handle} {e : ConvertError} (hi : s.phase i = .missed g)
      (h : s.cache.make g = .error e) :
      Step s (some ⟨i, g, .error e⟩) { s with phase := update s.phase i .idle }
  /-- A thread makes a converter. -/
  | make {s : Race ι σ} {i : ι} {g : Handle} {new : CachedConverter} {cache : Cache σ}
      (hi : s.phase i = .missed g) (h : s.cache.make g = .ok (new, cache)) :
      Step s none { s with cache, phase := update s.phase i (.made g new) }
  /-- A thread looks again, and stores what it has made if there still is no converter. -/
  | store {s : Race ι σ} {i : ι} {g : Handle} {new c : CachedConverter} {cache : Cache σ}
      (hi : s.phase i = .made g new) (h : s.cache.store g new = (c, cache)) :
      Step s (some ⟨i, g, .ok c⟩) { s with cache, phase := update s.phase i .idle }
  /-- The cache is cleared. -/
  | clear (s : Race ι σ) : Step s none { s with cache := s.cache.clear }

/-- The races that can come about from an empty cache, with no request under way. -/
inductive Reachable [DecidableEq ι] (settings : Settings) : Race ι σ → Prop where
  | start : Reachable settings { cache := .ofSettings settings }
  | step {s s' : Race ι σ} {r : Option (Reply ι)} :
      Reachable settings s → Step s r s' → Reachable settings s'

/-- A step in which the converter for an identity, if there is one, is neither pushed out nor
cleared. -/
def Keeps [DecidableEq ι] (id : UInt64) (s s' : Race ι σ) : Prop :=
  (∃ r, Step s r s') ∧ (id ∈ s.cache.ids → id ∈ s'.cache.ids)

/-! ### The invariant -/

/-- The cache and what the threads hold are as they should be. -/
structure Sound (settings : Settings) (s : Race ι σ) : Prop
    extends Session.Sound settings s.toSession where
  capacity_eq : s.cache.capacity = settings.capacity
  nodup : s.cache.ids.Nodup
  length_le : s.cache.entries.length ≤ settings.capacity
  /-- A thread asks for a grammar that has been entered. -/
  missed : ∀ i g, s.phase i = .missed g → g ∈ s.handles
  /-- A thread holds the converter for the grammar that it asks for. -/
  made : ∀ i g new, s.phase i = .made g new →
    g ∈ s.handles ∧ Converter.fresh settings g.grammar = .ok new.converter
  /-- Every converter in the cache has been counted. -/
  stored_lt : ∀ e ∈ s.cache.entries, e.2.serial < s.cache.made
  /-- Every converter that a thread has made has been counted. -/
  held_lt : ∀ i g new, s.phase i = .made g new → new.serial < s.cache.made

section Sound

variable {settings : Settings} {s s' : Race ι σ} {i : ι} {g : Handle} {c : CachedConverter}

/-- Entering a grammar does not touch the cache or the threads. -/
theorem Sound.enter (h : Sound settings s) (g : Grammar) :
    Sound settings { s with
      catalogue := (s.catalogue.enter g).2
      handles := (s.catalogue.enter g).1 :: s.handles } where
  toSound := h.toSound.enter g
  capacity_eq := h.capacity_eq
  nodup := h.nodup
  length_le := h.length_le
  missed i g' hi := List.mem_cons_of_mem _ (h.missed i g' hi)
  made i g' new hi := (h.made i g' new hi).imp_left (List.mem_cons_of_mem _)
  stored_lt := h.stored_lt
  held_lt := h.held_lt

/-- The cache may change, if what comes in is the converter for its identity and has been
counted. -/
theorem Sound.withCache (h : Sound settings s) {new? : Option (UInt64 × CachedConverter)}
    {cache : Cache σ} (hchange : s.cache.Change new? cache)
    (hnew : ∀ e, new? = some e →
      Session.Backed settings s.catalogue e ∧ e.2.serial < s.cache.made) :
    Sound settings { s with cache } := by
  have hlength : cache.entries.length ≤ settings.capacity := by
    have hpos : 0 < s.cache.capacity := h.capacity_eq ▸ settings.capacity_pos
    exact h.capacity_eq ▸ hchange.entries.length_le hpos (h.capacity_eq ▸ h.length_le)
  refine ⟨⟨hchange.settings_eq.trans h.settings_eq, h.next_eq, h.handles, fun e he => ?_⟩,
    hchange.capacity_eq.trans h.capacity_eq, hchange.entries.nodup h.nodup, hlength, h.missed,
    h.made, fun e he => ?_, fun i g new hi => ?_⟩
  · rcases hchange.entries.mem_or he with hold | hin
    · exact h.entries e hold
    · exact (hnew e hin).1
  · refine Nat.lt_of_lt_of_le ?_ hchange.made_le
    rcases hchange.entries.mem_or he with hold | hin
    · exact h.stored_lt e hold
    · exact (hnew e hin).2
  · exact Nat.lt_of_lt_of_le (h.held_lt i g new hi) hchange.made_le

/-- What a thread has made is the converter for the identity that it would be stored under. -/
theorem Sound.backed (h : Sound settings s) (hi : s.phase i = .made g c) :
    Session.Backed settings s.catalogue (g.id, c) := by
  obtain ⟨hg, hfresh⟩ := h.made i g c hi
  exact ⟨g.grammar, h.handles g hg, hfresh⟩

variable [DecidableEq ι]

/-- A thread may go on, if it asks for a grammar that there is and holds the converter for it. -/
theorem Sound.withPhase (h : Sound settings s) (i : ι) {p : Phase}
    (hmissed : ∀ g, p = .missed g → g ∈ s.handles)
    (hmade : ∀ g new, p = .made g new → g ∈ s.handles ∧
      Converter.fresh settings g.grammar = .ok new.converter ∧ new.serial < s.cache.made) :
    Sound settings { s with phase := update s.phase i p } := by
  -- Every other thread stands where it stood.
  have hphase : ∀ j q, update s.phase i p j = q → q = p ∨ s.phase j = q := by
    intro j q hj
    by_cases hji : j = i
    · subst hji
      exact .inl (hj.symm.trans (Function.update_self ..))
    · exact .inr ((Function.update_of_ne hji ..).symm.trans hj)
  refine ⟨h.toSound, h.capacity_eq, h.nodup, h.length_le, fun j g hj => ?_,
    fun j g new hj => ?_, h.stored_lt, fun j g new hj => ?_⟩
  · rcases hphase j _ hj with hp | hj
    · exact hmissed g hp.symm
    · exact h.missed j g hj
  · rcases hphase j _ hj with hp | hj
    · obtain ⟨hg, hfresh, -⟩ := hmade g new hp.symm
      exact ⟨hg, hfresh⟩
    · exact h.made j g new hj
  · rcases hphase j _ hj with hp | hj
    · exact (hmade g new hp.symm).2.2
    · exact h.held_lt j g new hj

theorem Sound.withIdle (h : Sound settings s) (i : ι) :
    Sound settings { s with phase := update s.phase i .idle } :=
  h.withPhase i nofun nofun

/-! ### Steps -/

variable [RecencyStore.Lawful σ]

/-- What a step brings into the cache is what a thread has made. -/
theorem Step.change {r : Option (Reply ι)} (hstep : Step s r s') :
    ∃ new?, s.cache.Change new? s'.cache ∧
      ∀ e, new? = some e → ∃ i g new, s.phase i = .made g new ∧ e = (g.id, new) := by
  cases hstep with
  | enter _ | refuse _ _ => exact ⟨none, .refl _, nofun⟩
  | hit _ _ h | miss _ _ h => exact ⟨none, Cache.change_of_lookup h, nofun⟩
  | make _ h => exact ⟨none, Cache.change_of_make h, nofun⟩
  | @store i g new c _ hi h =>
    rcases Cache.store_cases h with ⟨-, hchange⟩ | ⟨-, -, -, hchange⟩
    · exact ⟨none, hchange, nofun⟩
    · refine ⟨some (g.id, new), hchange, fun e he => ?_⟩
      exact ⟨i, g, new, hi, (Option.some.inj he).symm⟩
  | clear => exact ⟨none, Cache.change_clear _, nofun⟩

/-- **Every step keeps the invariant.** The cache changes, and then a thread goes on. -/
theorem Sound.step (h : Sound settings s) {r : Option (Reply ι)} (hstep : Step s r s') :
    Sound settings s' := by
  obtain ⟨new?, hchange, hnew⟩ := hstep.change
  -- All that a step does to the cache is done here, so the cases below are about the thread only.
  have hcache : Sound settings { s with cache := s'.cache } := by
    refine h.withCache hchange fun e he => ?_
    obtain ⟨i, g, new, hi, rfl⟩ := hnew e he
    exact ⟨h.backed hi, h.held_lt i g new hi⟩
  cases hstep with
  | enter g => exact h.enter g
  | hit _ _ _ | clear => exact hcache
  | @miss i g _ _ hg _ =>
    -- The thread goes on with a handle that there is.
    refine hcache.withPhase i (fun g' hg' => ?_) nofun
    rw [← Phase.missed.inj hg']
    exact hg
  | @make i g new _ hi hmake =>
    -- What it has made bears the last number that has been counted.
    obtain ⟨c, hc, rfl, rfl⟩ := Cache.make_eq_ok hmake
    refine hcache.withPhase i nofun fun g' new' heq => ?_
    obtain ⟨rfl, rfl⟩ := Phase.made.inj heq
    refine ⟨h.missed i g hi, ?_, Nat.lt_succ_self _⟩
    rw [Converter.fresh, hc, h.settings_eq]
    rfl
  | @refuse i _ _ _ _ | @store i _ _ _ _ _ _ => exact hcache.withIdle i

omit [DecidableEq ι] in
theorem Sound.start (settings : Settings) :
    Sound settings ({ cache := .ofSettings settings } : Race ι σ) := by
  have hentries := Cache.entries_ofSettings (σ := σ) settings
  refine ⟨.start settings, RecencyStore.Lawful.capacity_new settings.capacity_pos, ?_, ?_, nofun,
    nofun, fun e he => ?_, nofun⟩
  · rw [Cache.ids, hentries]
    exact List.nodup_nil
  · rw [hentries]
    exact Nat.zero_le _
  · rw [hentries] at he
    exact absurd he List.not_mem_nil

theorem Reachable.sound (h : Reachable settings s) : Sound settings s := by
  induction h with
  | start => exact .start settings
  | step _ hstep ih => exact ih.step hstep

/-! ### Replies -/

/-- A converter is given out either because it stands in the cache, or by the thread that has made
it, which puts it there. It then is in the first place. -/
theorem Step.granted (hstep : Step s (some ⟨i, g, .ok c⟩) s') :
    (s.phase i = .idle ∧ g ∈ s.handles ∨ ∃ new, s.phase i = .made g new) ∧
      ((g.id, c) ∈ s.cache.entries ∨ g.id ∉ s.cache.ids ∧ s.phase i = .made g c) ∧
        ∃ others, s'.cache.entries = (g.id, c) :: others := by
  cases hstep with
  | hit hi hg h =>
    obtain ⟨others, hentries⟩ := (Cache.promotes_of_lookup h).exists_eq_cons
    exact ⟨.inl ⟨hi, hg⟩, .inl (Cache.promotes_of_lookup h).mem, others, hentries⟩
  | @store _ _ new _ _ hi h =>
    refine ⟨.inr ⟨new, hi⟩, ?_⟩
    rcases Cache.store_cases h with ⟨hfound, -⟩ | ⟨hnot, rfl, hentries, -⟩
    · exact ⟨.inl hfound.mem, hfound.exists_eq_cons⟩
    · exact ⟨.inr ⟨hnot, hi⟩, _, hentries⟩

/-- What is given out stands in the cache from then on. -/
theorem Step.lookup_granted (hstep : Step s (some ⟨i, g, .ok c⟩) s') :
    s'.cache.entries.lookup g.id = some c := by
  obtain ⟨others, hentries⟩ := hstep.granted.2.2
  rw [hentries]
  exact List.lookup_cons_self

/-- What is given out is the converter for the grammar that was asked for. -/
theorem Sound.fresh_granted (h : Sound settings s) (hsize : s.catalogue.grammars.size ≤ UInt64.size)
    (hstep : Step s (some ⟨i, g, .ok c⟩) s') :
    Converter.fresh settings g.grammar = .ok c.converter := by
  obtain ⟨hasked, hgiven, -⟩ := hstep.granted
  have hg : g ∈ s.handles := by
    rcases hasked with ⟨-, hg⟩ | ⟨new, hi⟩
    · exact hg
    · exact (h.made i g new hi).1
  -- What was in the cache is right because its identity is, and what was made was made to be right.
  rcases hgiven with hfound | ⟨-, hi⟩
  · exact h.fresh_of_backed hsize hg (h.entries _ hfound)
  · exact (h.made i g c hi).2

/-- A converter stays the same in a step that keeps it. What comes in has another identity, since
the one in question was taken. -/
theorem Sound.lookup_keeps (h : Sound settings s) {id : UInt64} (hkeeps : Keeps id s s')
    (hlookup : s.cache.entries.lookup id = some c) : s'.cache.entries.lookup id = some c := by
  obtain ⟨⟨r, hstep⟩, hstays⟩ := hkeeps
  obtain ⟨new?, hchange, -⟩ := hstep.change
  have hid : id ∈ s.cache.ids := List.mem_map_of_mem (mem_of_lookup hlookup)
  exact hchange.entries.lookup_eq h.nodup hlookup (hstays hid)

/-- A converter stays the same as long as it is kept. -/
theorem Sound.lookup_run (h : Sound settings s) {id : UInt64}
    (hrun : Relation.ReflTransGen (Keeps id) s s')
    (hlookup : s.cache.entries.lookup id = some c) :
    Sound settings s' ∧ s'.cache.entries.lookup id = some c := by
  induction hrun with
  | refl => exact ⟨h, hlookup⟩
  | tail _ hkeeps ih =>
    obtain ⟨hsound, hlookup⟩ := ih
    have ⟨r, hstep⟩ := hkeeps.1
    exact ⟨hsound.step hstep, hsound.lookup_keeps hkeeps hlookup⟩

end Sound

/-- **Requests that run side by side share one converter**, if the store is lawful. Whatever the
threads have done, in whatever order:

* the cache has no identity twice and is not too large;
* a thread that makes a converter makes another one than all that are in the cache or with threads;
* a converter that is given out stands in the cache under the identity of its grammar right after
  the last step of the request, and as long as there have been identities for all grammars, it is
  the one for the grammar that was asked for;
* if it is neither pushed out nor cleared from then on, every later request for the grammar is given
  this very one. -/
theorem requests_share {ι σ : Type} [DecidableEq ι] [RecencyStore σ UInt64 CachedConverter]
    [RecencyStore.Lawful σ] {settings : Settings} {s : Race ι σ} (h : Reachable settings s) :
    (s.cache.ids.Nodup ∧ s.cache.size ≤ settings.capacity) ∧
      (∀ g new cache, s.cache.make g = .ok (new, cache) →
        (∀ e ∈ s.cache.entries, e.2.serial ≠ new.serial) ∧
          ∀ i g' c, s.phase i = .made g' c → c.serial ≠ new.serial) ∧
      (∀ i g c s', Step s (some ⟨i, g, .ok c⟩) s' →
        (s.catalogue.grammars.size ≤ UInt64.size →
          Converter.fresh settings g.grammar = .ok c.converter) ∧
          s'.cache.entries.lookup g.id = some c) ∧
      ∀ i g c s₁, Step s (some ⟨i, g, .ok c⟩) s₁ →
        ∀ s₂, Relation.ReflTransGen (Keeps g.id) s₁ s₂ →
          ∀ j g' c' s₃, Step s₂ (some ⟨j, g', .ok c'⟩) s₃ → g'.id = g.id → c' = c := by
  have hsound := h.sound
  refine ⟨⟨hsound.nodup, ?_⟩, fun g new cache hmake => ?_, fun i g c s' hstep => ?_, ?_⟩
  · rw [Cache.size_eq, Cache.ids, List.length_map]
    exact hsound.length_le
  · obtain ⟨_, -, rfl, -⟩ := Cache.make_eq_ok hmake
    exact ⟨fun e he => Nat.ne_of_lt (hsound.stored_lt e he),
      fun i g' c hi => Nat.ne_of_lt (hsound.held_lt i g' c hi)⟩
  · exact ⟨fun hsize => hsound.fresh_granted hsize hstep, hstep.lookup_granted⟩
  · intro i g c s₁ hfirst s₂ hrun j g' c' s₃ hsecond hid
    obtain ⟨hsound₂, hlookup⟩ := (hsound.step hfirst).lookup_run hrun hfirst.lookup_granted
    -- The second request finds the converter, so it does not store one of its own.
    rw [← hid] at hlookup
    rcases hsecond.granted.2.1 with hfound | ⟨hnot, -⟩
    · exact Option.some.inj ((lookup_eq_some_of_mem hsound₂.nodup hfound).symm.trans hlookup)
    · exact absurd (List.mem_map_of_mem (mem_of_lookup hlookup)) hnot

/-- Two threads ask for one grammar, and both find no converter and make one. The first one stores
its own, and goes on to ask for another grammar. The second one is given the converter of the first
and not the one it has made. -/
theorem requests_share_two :
    let settings : Settings := { capacity := 2 }
    let g : Handle := ⟨1, .ofC⟩
    ∃ (s s₁ s₂ s₃ : Race Bool (RecencyList UInt64 CachedConverter)) (c c' new : CachedConverter),
      Reachable settings s ∧ Step s (some ⟨false, g, .ok c⟩) s₁ ∧
        Relation.ReflTransGen (Keeps 1) s₁ s₂ ∧ s₂.cache.ids = [2, 1] ∧
          s₂.phase true = .made g new ∧ Step s₂ (some ⟨true, g, .ok c'⟩) s₃ ∧
            c.serial = 0 ∧ new.serial = 1 ∧ c' = c := by
  intro settings g
  obtain ⟨d, hd⟩ : ∃ d, Converter.resolve .ofC none = .ok d := ⟨_, rfl⟩
  have hmake : ∀ (cache : Cache (RecencyList UInt64 CachedConverter)) (id : UInt64),
      cache.make ⟨id, .ofC⟩ =
        .ok (⟨cache.made, d.withSettings cache.settings⟩,
          { cache with made := cache.made + 1 }) := by
    intro cache id
    rw [Cache.make, hd]
    rfl
  obtain ⟨s, hs, hcache, hfalse, htrue, hother⟩ :
      ∃ s : Race Bool (RecencyList UInt64 CachedConverter), Reachable settings s ∧
        s.cache = ⟨settings, ⟨2, []⟩, 2⟩ ∧ s.phase false = .made g ⟨0, d.withSettings settings⟩ ∧
          s.phase true = .made g ⟨1, d.withSettings settings⟩ ∧ ⟨2, .ofC⟩ ∈ s.handles := by
    have hstart : Reachable (ι := Bool) (σ := RecencyList UInt64 CachedConverter) settings
      { cache := .ofSettings settings } := .start
    have hentered := (hstart.step (.enter _ .ofC)).step (.enter _ .ofC)
    have hmissed := (hentered.step (.miss (i := false) (g := g) rfl (.tail _ (.head _)) rfl)).step
      (.miss (i := true) (g := g) rfl (.tail _ (.head _)) rfl)
    have hmade := (hmissed.step (.make (i := false) rfl (hmake _ 1))).step
      (.make (i := true) rfl (hmake _ 1))
    exact ⟨_, hmade, rfl, rfl, rfl, .head _⟩
  obtain ⟨s₁, hfirst, hcache₁, hfalse₁, htrue₁, hother₁⟩ :
      ∃ s₁ : Race Bool (RecencyList UInt64 CachedConverter),
        Step s (some ⟨false, g, .ok ⟨0, d.withSettings settings⟩⟩) s₁ ∧
          s₁.cache = ⟨settings, ⟨2, [(1, ⟨0, d.withSettings settings⟩)]⟩, 2⟩ ∧
            s₁.phase false = .idle ∧ s₁.phase true = .made g ⟨1, d.withSettings settings⟩ ∧
              ⟨2, .ofC⟩ ∈ s₁.handles :=
    ⟨_, .store hfalse (by rw [hcache]; rfl), rfl, rfl, htrue, hother⟩
  obtain ⟨s₂, hrun, hids, htrue₂⟩ : ∃ s₂ : Race Bool (RecencyList UInt64 CachedConverter),
      Relation.ReflTransGen (Keeps 1) s₁ s₂ ∧ s₂.cache.ids = [2, 1] ∧
        s₂.phase true = .made g ⟨1, d.withSettings settings⟩ := by
    have hmiss : s₁.cache.lookup ⟨2, .ofC⟩ = (none, s₁.cache) := by
      rw [hcache₁]
      rfl
    -- Nothing is pushed out, since there is room for two.
    refine ⟨_, .tail (.tail (.tail .refl ⟨⟨none, .miss hfalse₁ hother₁ hmiss⟩, fun h => h⟩)
      ⟨⟨none, .make (i := false) rfl (hmake _ 2)⟩, fun h => h⟩)
      ⟨⟨_, .store (i := false) rfl rfl⟩, fun _ => ?_⟩, ?_, htrue₁⟩
    · simp only [hcache₁]
      exact .tail 2 (.head [])
    · simp only [hcache₁]
      rfl
  have hsecond := Step.store (c := (s₂.cache.store g _).1) htrue₂ rfl
  have hsame := (requests_share hs).2.2.2 _ _ _ _ hfirst _ hrun _ _ _ _ hsecond rfl
  exact ⟨s, s₁, s₂, _, _, _, _, hs, hfirst, hrun, hids, htrue₂, hsecond, rfl, rfl, hsame⟩

end Race

end TypedSyntax
