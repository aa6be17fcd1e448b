import Mathlib.Data.List.Induction
import Mathlib.Data.List.Nodup
import TypedSyntax.Proofs.Cache.Calls
import TypedSyntax.Proofs.CGrammar
import TypedSyntax.Store.RecencyList

/-!
# What a cache remembers

A cache keeps the converters that were asked for last. Its history is a list of calls, and what has
become of each of them is noted in a log (`Cache.log`). The grammars for which a converter was given
out since the cache was last cleared, the latest first, are the `requests` of the log.

* `Cache.run_recency` — with any lawful store, the grammars in the cache, in its order, are the
  first ones without repetition in that list, as many as the cache can hold. A request that fails
  changes nothing, and a converter that is pushed out is the one whose grammar was asked for least
  recently.

A request puts a grammar in front of the list. What this does to the first members without
repetition is said by `recent_cons_of_mem`, which is what a store does that has the converter, and
by `recent_cons_of_not_mem`, which is what it does when the converter is new. What a request does
to the entries is said by `Cache.Serves`, which joins its two looks into one: the second look finds
nothing that the first one has not found.
-/

namespace TypedSyntax

/-! ### The first members without repetition -/

/-- The first `k` members of a list, not counting those that came before. -/
def recent {κ : Type} [DecidableEq κ] (k : Nat) (as : List κ) : List κ :=
  as.eraseDups.take k

section Recent

variable {κ : Type} [DecidableEq κ] {k m : Nat} {a : κ} {as : List κ}

/-- Leaving out members and leaving out repetitions may be done in either order. The recursion is
that of `eraseDups`, which goes on with a filtered list. -/
theorem eraseDups_filter (p : κ → Bool) :
    ∀ as : List κ, (as.filter p).eraseDups = as.eraseDups.filter p
  | [] => rfl
  | a :: as => by
    -- Both sides drop the members of `as` that equal `a` before they go on.
    have hrest := eraseDups_filter p (as.filter (!· == a))
    by_cases ha : p a = true
    · rw [List.filter_cons_of_pos ha, List.eraseDups_cons, List.eraseDups_cons,
        List.filter_cons_of_pos ha, ← hrest, List.filter_comm]
    · have hcongr : (as.filter (!· == a)).filter p = as.filter p := by
        rw [List.filter_filter]
        refine List.filter_congr fun b _ => ?_
        by_cases hb : b = a
        · simp [hb, ha]
        · simp [hb]
      rw [List.filter_cons_of_neg ha, List.eraseDups_cons, List.filter_cons_of_neg ha, ← hrest,
        hcongr]
termination_by as => as.length
decreasing_by exact Nat.lt_succ_of_le (List.length_filter_le _ _)

/-- The first member comes first, and it does not come again. -/
theorem eraseDups_cons_eq (a : κ) (as : List κ) :
    (a :: as).eraseDups = a :: as.eraseDups.filter (· ≠ a) := by
  rw [List.eraseDups_cons, eraseDups_filter]
  congr 1
  refine List.filter_congr fun b _ => ?_
  by_cases h : b = a <;> simp [h]

theorem nodup_eraseDups (as : List κ) : as.eraseDups.Nodup := by
  induction as with
  | nil => exact List.nodup_nil
  | cons a as ih =>
    rw [eraseDups_cons_eq, List.nodup_cons]
    exact ⟨by simp, ih.filter _⟩

/-- The members without repetition stand in the order in which they first come. -/
theorem pairwise_idxOf_eraseDups (as : List κ) :
    as.eraseDups.Pairwise fun a b => as.idxOf a < as.idxOf b := by
  induction as with
  | nil => exact List.Pairwise.nil
  | cons c as ih =>
    -- Behind the first member all places are one further on, for those that stay.
    have hshift : ∀ b ∈ as.eraseDups.filter (· ≠ c), (c :: as).idxOf b = as.idxOf b + 1 := by
      intro b hb
      have hne : b ≠ c := by simpa using (List.mem_filter.1 hb).2
      exact List.idxOf_cons_ne as (Ne.symm hne)
    rw [eraseDups_cons_eq, List.pairwise_cons]
    constructor
    · intro b hb
      rw [List.idxOf_cons_self, hshift b hb]
      exact Nat.succ_pos _
    · refine (ih.filter _).imp_of_mem fun {a b} ha hb hlt => ?_
      rw [hshift a ha, hshift b hb]
      exact Nat.succ_lt_succ hlt

/-- Leaving out a member that is not among the first `m` does not change these. -/
theorem take_filter_of_not_mem (h : a ∉ as.take m) :
    (as.filter (· ≠ a)).take m = as.take m := by
  induction as generalizing m with
  | nil => rfl
  | cons b as ih =>
    cases m with
    | zero => rfl
    | succ m =>
      rw [List.take_succ_cons, List.mem_cons, not_or] at h
      have hfilter : (b :: as).filter (· ≠ a) = b :: as.filter (· ≠ a) :=
        List.filter_cons_of_pos (by simpa using Ne.symm h.1)
      rw [hfilter, List.take_succ_cons, List.take_succ_cons, ih h.2]

/-- Leaving out a member that is among the first `m + 1` leaves `m` of them, if it is there only
once. -/
theorem take_filter_of_mem (hnodup : as.Nodup) (h : a ∈ as.take (m + 1)) :
    (as.filter (· ≠ a)).take m = (as.take (m + 1)).filter (· ≠ a) := by
  induction as generalizing m with
  | nil => simp at h
  | cons b as ih =>
    obtain ⟨hb, hnodup⟩ := List.nodup_cons.1 hnodup
    by_cases hba : b = a
    · -- The member itself: it comes no second time.
      subst hba
      have hself : ∀ bs : List κ, bs ⊆ as → bs.filter (· ≠ b) = bs := by
        intro bs hbs
        refine List.filter_eq_self.2 fun c hc => ?_
        have hne : c ≠ b := by
          rintro rfl
          exact hb (hbs hc)
        simpa using hne
      simp only [List.take_succ_cons, List.filter_cons, ne_eq, not_true_eq_false, decide_false,
        Bool.false_eq_true, if_false]
      rw [hself as (List.Subset.refl _), hself _ (List.take_subset _ _)]
    · rw [List.take_succ_cons, List.mem_cons] at h
      have h := h.resolve_left (Ne.symm hba)
      have hfilter (bs : List κ) : (b :: bs).filter (· ≠ a) = b :: bs.filter (· ≠ a) :=
        List.filter_cons_of_pos (by simpa using hba)
      cases m with
      | zero => simp at h
      | succ m =>
        rw [List.take_succ_cons, hfilter, hfilter, List.take_succ_cons, ih hnodup h]

theorem recent_nil (k : Nat) : recent k ([] : List κ) = [] :=
  List.take_nil

theorem nodup_recent (k : Nat) (as : List κ) : (recent k as).Nodup :=
  (nodup_eraseDups as).sublist (List.take_sublist _ _)

/-- A member that is among the first moves to the front. -/
theorem recent_cons_of_mem (h : a ∈ recent k as) :
    recent k (a :: as) = a :: (recent k as).erase a := by
  rw [(nodup_recent k as).erase_eq_filter]
  unfold recent at h ⊢
  cases k with
  | zero => simp at h
  | succ m =>
    rw [eraseDups_cons_eq, List.take_succ_cons, take_filter_of_mem (nodup_eraseDups as) h]
    congr 1
    exact List.filter_congr fun b _ => by by_cases hb : b = a <;> simp [hb]

/-- Another member comes in front, and what is then too much falls off. -/
theorem recent_cons_of_not_mem (h : a ∉ recent k as) :
    recent k (a :: as) = (a :: recent k as).take k := by
  unfold recent at h ⊢
  cases k with
  | zero => rfl
  | succ m =>
    have hnot : a ∉ as.eraseDups.take m := fun hmem =>
      h (List.take_subset_take_left _ (Nat.le_succ m) hmem)
    rw [eraseDups_cons_eq, List.take_succ_cons, List.take_succ_cons, take_filter_of_not_mem hnot,
      List.take_take, Nat.min_eq_left (Nat.le_succ m)]

end Recent

namespace Cache

/-! ### Logs -/

/-- What has become of a call. -/
inductive Outcome where
  /-- A converter was given out for the grammar with this identity. -/
  | granted (id : UInt64)
  /-- No converter could be made. -/
  | refused
  /-- The cache was cleared. -/
  | cleared
  /-- A question was answered. -/
  | answered
  deriving DecidableEq

/-- The identity of a grammar for which a converter was given out. -/
def Outcome.granted? : Outcome → Option UInt64
  | granted id => some id
  | refused | cleared | answered => none

/-- What becomes of a request. -/
def Outcome.ofResult (g : Handle) : Except ConvertError CachedConverter → Outcome
  | .ok _ => granted g.id
  | .error _ => refused

/-- The grammars for which a converter was given out since the cache was last cleared, the latest
first. -/
def requests (log : List Outcome) : List UInt64 :=
  (log.reverse.takeWhile (· ≠ .cleared)).filterMap Outcome.granted?

section Requests

variable {log : List Outcome}

theorem requests_granted (id : UInt64) :
    requests (log ++ [.granted id]) = id :: requests log := by
  simp [requests, Outcome.granted?]

theorem requests_cleared : requests (log ++ [.cleared]) = [] := by
  simp [requests]

theorem requests_other {o : Outcome} (hclear : o ≠ .cleared)
    (hgrant : o.granted? = none) : requests (log ++ [o]) = requests log := by
  simp [requests, hclear, hgrant]

end Requests

variable {σ : Type} [RecencyStore σ UInt64 CachedConverter]

/-- What becomes of a call. -/
def outcome (cache : Cache σ) : Call → Outcome
  | .get g | .encode g _ | .decode g _ => .ofResult g (cache.get g).1
  | .clear => .cleared
  | .contains _ | .size => .answered

/-- What becomes of a list of calls. -/
def log (cache : Cache σ) : List Call → List Outcome
  | [] => []
  | call :: calls => cache.outcome call :: (cache.after call).log calls

section Log

variable {cache : Cache σ} {g : Handle} {call : Call}

theorem log_concat (cache : Cache σ) (calls : List Call) (call : Call) :
    cache.log (calls ++ [call]) = cache.log calls ++ [(cache.run calls).outcome call] := by
  induction calls generalizing cache with
  | nil => rfl
  | cons c calls ih =>
    rw [List.cons_append, log, ih, log, List.cons_append]
    rfl

theorem run_concat (cache : Cache σ) (calls : List Call) (call : Call) :
    cache.run (calls ++ [call]) = (cache.run calls).after call :=
  List.foldl_concat ..

theorem outcome_of_request (h : call.request? = some g) :
    cache.outcome call = .ofResult g (cache.get g).1 := by
  cases call <;> cases h <;> rfl

theorem outcome_of_question (h : call.request? = none) (hclear : call ≠ .clear) :
    cache.outcome call = .answered := by
  cases call with
  | contains g => rfl
  | size => rfl
  | clear => exact absurd rfl hclear
  | get g => exact absurd h nofun
  | encode g n => exact absurd h nofun
  | decode g t => exact absurd h nofun

end Log

/-! ### One request -/

/-- What a request returns, and the entries behind it. -/
inductive Serves (cache : Cache σ) (g : Handle) : Except ConvertError CachedConverter →
    List (UInt64 × CachedConverter) → Prop where
  /-- The converter is there. -/
  | hit {c : CachedConverter} {entries : List (UInt64 × CachedConverter)}
      (h : RecencyStore.Promotes (g.id, c) cache.entries entries) : Serves cache g (.ok c) entries
  /-- There is none, and none can be made. -/
  | refused {e : ConvertError} (h : g.id ∉ cache.ids)
      (he : Converter.resolve g.grammar none = .error e) :
      Serves cache g (.error e) cache.entries
  /-- There is none, and one is made. -/
  | made {c : Converter} {new : CachedConverter} (h : g.id ∉ cache.ids)
      (hc : Converter.resolve g.grammar none = .ok c) :
      Serves cache g (.ok new)
        (RecencyStore.insertFirst cache.capacity (g.id, new) cache.entries)

section Serves

variable {cache : Cache σ} {g : Handle} {r : Except ConvertError CachedConverter}
  {entries : List (UInt64 × CachedConverter)} {log : List Outcome}

/-- A request keeps the cache in step with its history. What the store does to its keys is what one
more request does to the first members of the list without repetition. -/
theorem Serves.ids_eq_recent {k : Nat} (h : Serves cache g r entries) (hpos : 0 < k)
    (hcapacity : cache.capacity = k) (hids : cache.ids = recent k (requests log)) :
    entries.map Prod.fst = recent k (requests (log ++ [.ofResult g r])) := by
  have hkeys : cache.entries.map Prod.fst = recent k (requests log) := hids
  cases h with
  | hit hfound =>
    have hmem : g.id ∈ recent k (requests log) := hids ▸ List.mem_map_of_mem hfound.mem
    rw [Outcome.ofResult, requests_granted, recent_cons_of_mem hmem,
      hfound.keys_eq (hkeys ▸ nodup_recent ..), hkeys]
  | refused _ _ => rw [Outcome.ofResult, requests_other (o := .refused) (by decide) rfl, hkeys]
  | made hnot _ =>
    -- The cache is not overfull, so to drop the last entry is to keep as many as there is room for.
    have hlength : cache.entries.length ≤ k := by
      rw [← List.length_map Prod.fst, hkeys]
      exact List.length_take_le ..
    rw [Outcome.ofResult, requests_granted, recent_cons_of_not_mem (hids ▸ hnot), hcapacity,
      RecencyStore.insertFirst_eq_take hpos hlength, List.map_take, List.map_cons, hkeys]

/-- A converter that a request pushes out stood in the last place of a full cache. No other request
makes a converter go, since what is found moves and what cannot be made leaves no trace. -/
theorem Serves.evicts_last (h : Serves cache g r entries) {id : UInt64}
    (hsize : cache.ids.length ≤ cache.capacity) (hbefore : id ∈ cache.ids)
    (hafter : id ∉ entries.map Prod.fst) :
    cache.ids.length = cache.capacity ∧
      ∃ front, cache.ids = front ++ [id] ∧ entries.map Prod.fst = g.id :: front := by
  cases h with
  | hit hfound => exact absurd ((hfound.perm.map Prod.fst).mem_iff.2 hbefore) hafter
  | refused _ _ => exact absurd hbefore hafter
  | made _ _ =>
    rw [RecencyStore.insertFirst] at hafter ⊢
    split at hafter
    · exact absurd (List.mem_cons_of_mem _ hbefore) hafter
    · next hfull =>
      -- All but the last entry are still there behind the new one.
      have hne : cache.ids ≠ [] := List.ne_nil_of_mem hbefore
      have hsplit : cache.ids = cache.ids.dropLast ++ [cache.ids.getLast hne] :=
        (List.dropLast_append_getLast hne).symm
      rw [List.map_cons, List.map_dropLast, List.mem_cons, not_or] at hafter
      have hlast : id = cache.ids.getLast hne := by
        rw [hsplit, List.mem_append, List.mem_singleton] at hbefore
        exact hbefore.resolve_left hafter.2
      rw [if_neg hfull, List.map_cons, List.map_dropLast]
      refine ⟨Nat.le_antisymm hsize ?_, cache.ids.dropLast, hlast ▸ hsplit, rfl⟩
      rw [ids, List.length_map]
      exact Nat.not_lt.1 hfull

/-- A request fails if there is no converter and none can be made. -/
theorem Serves.error_iff {e : ConvertError} (h : Serves cache g r entries) :
    r = .error e ↔ g.id ∉ cache.ids ∧ Converter.resolve g.grammar none = .error e := by
  cases h with
  | hit hfound =>
    have hmem : g.id ∈ cache.ids := List.mem_map_of_mem hfound.mem
    simp [hmem]
  | refused hnot he => simp [hnot, he]
  | made _ hc => simp [hc]

/-- A request that fails changes nothing, not even the order. -/
theorem Serves.eq_of_error {e : ConvertError} (h : Serves cache g r entries) (he : r = .error e) :
    entries = cache.entries := by
  cases h with
  | refused _ _ => rfl
  | hit _ | made _ _ => contradiction

end Serves

/-! ### Every history -/

section Lawful

variable [RecencyStore.Lawful σ] {cache cache' : Cache σ} {g : Handle}
  {r : Except ConvertError CachedConverter} {log : List Outcome} {call : Call}

/-- With a lawful store, this is what a request comes to. -/
theorem Gets.serves (h : Gets cache g r cache') : Serves cache g r cache'.entries := by
  cases h with
  | hit hlookup => exact .hit (promotes_of_lookup hlookup)
  | refused hlookup hmake =>
    obtain ⟨hnot, hsame⟩ := not_mem_ids_of_lookup hlookup
    rw [hsame]
    exact .refused hnot (make_eq_error hmake)
  | @stored c new cache₁ cache₂ _ hlookup hmake hstore =>
    obtain ⟨hnot, hsame⟩ := not_mem_ids_of_lookup hlookup
    obtain ⟨d, hd, -, hcache₂⟩ := make_eq_ok hmake
    have hentries₂ : cache₂.entries = cache.entries := by
      rw [hcache₂]
      exact hsame
    have hcapacity₂ : cache₂.capacity = cache.capacity := by
      rw [hcache₂]
      exact (change_of_lookup hlookup).capacity_eq
    rcases store_cases hstore with ⟨hfound, -⟩ | ⟨-, rfl, hentries, -⟩
    · -- Nothing has come in since the first look, so the second one finds nothing either.
      have hmem : g.id ∈ cache.ids := by
        rw [ids, ← hentries₂]
        exact List.mem_map_of_mem hfound.mem
      exact absurd hmem hnot
    · rw [hentries, hentries₂, hcapacity₂]
      exact .made hnot hd

theorem contains_iff : cache.contains g = true ↔ g.id ∈ cache.ids :=
  RecencyStore.Lawful.contains_iff

theorem size_eq (cache : Cache σ) : cache.size = cache.ids.length :=
  (RecencyStore.Lawful.size_eq _).trans (List.length_map _).symm

/-- No call changes the room that there is. Clearing makes all of it free. -/
theorem capacity_after (cache : Cache σ) (call : Call) :
    (cache.after call).capacity = cache.capacity := by
  rcases cache.after_cases call with ⟨g, -, h⟩ | ⟨-, h⟩ | ⟨-, -, h⟩
  · rw [h, (cache.gets g).capacity_eq]
  · rw [h, (change_clear cache).capacity_eq]
  · rw [h]

/-- A call keeps the cache in step with its history: requests by what they come to, clearing because
both sides start anew, and questions because they change nothing. -/
theorem ids_after {k : Nat} (hpos : 0 < k) (hcapacity : cache.capacity = k)
    (hids : cache.ids = recent k (requests log)) :
    (cache.after call).ids = recent k (requests (log ++ [cache.outcome call])) := by
  rcases cache.after_cases call with ⟨g, hrequest, h⟩ | ⟨rfl, h⟩ | ⟨hnone, hclear, h⟩
  · rw [h, outcome_of_request hrequest]
    exact (cache.gets g).serves.ids_eq_recent hpos hcapacity hids
  · rw [h, outcome, requests_cleared, recent_nil, ids, entries_clear]
    rfl
  · rw [h, outcome_of_question hnone hclear, requests_other (o := .answered) (by decide) rfl, hids]

/-- Whatever has been asked of it, a cache has the room and the grammars that it should have. -/
theorem ids_run (settings : Settings) (calls : List Call) :
    ((ofSettings settings : Cache σ).run calls).capacity = settings.capacity ∧
      ((ofSettings settings : Cache σ).run calls).ids =
        recent settings.capacity (requests ((ofSettings settings : Cache σ).log calls)) := by
  induction calls using List.reverseRecOn with
  | nil =>
    refine ⟨RecencyStore.Lawful.capacity_new settings.capacity_pos, ?_⟩
    rw [run, List.foldl_nil, ids, entries_ofSettings]
    exact (recent_nil _).symm
  | append_singleton calls call ih =>
    obtain ⟨hcapacity, hids⟩ := ih
    rw [run_concat, log_concat]
    exact ⟨(capacity_after ..).trans hcapacity, ids_after settings.capacity_pos hcapacity hids⟩

end Lawful

/-- **A cache keeps the grammars that were asked for last**, if its store is lawful. Its identities,
in its order, are the first ones without repetition among the requests that were granted since it
was last cleared, read backwards. So it is never too large and has no identity twice. A request
fails only if there is no converter and none can be made, and then the converters and their order
stay as they are. A converter that goes is the last one of a full cache, and all the others have
been asked for after it. -/
theorem run_recency {σ : Type} [RecencyStore σ UInt64 CachedConverter] [RecencyStore.Lawful σ]
    (settings : Settings) (calls : List Call) :
    let cache := (ofSettings settings : Cache σ).run calls
    let asked := requests ((ofSettings settings : Cache σ).log calls)
    cache.ids = asked.eraseDups.take settings.capacity ∧
      (∀ g, cache.contains g = true ↔ g.id ∈ cache.ids) ∧
      cache.size = cache.ids.length ∧
      cache.size ≤ settings.capacity ∧
      cache.ids.Nodup ∧
      (∀ g e, (cache.get g).1 = .error e ↔
        g.id ∉ cache.ids ∧ Converter.resolve g.grammar none = .error e) ∧
      (∀ g e, (cache.get g).1 = .error e → (cache.get g).2.entries = cache.entries) ∧
      (∀ g id, id ∈ cache.ids → id ∉ (cache.get g).2.ids →
        cache.size = settings.capacity ∧
          (∃ front, cache.ids = front ++ [id] ∧ (cache.get g).2.ids = g.id :: front) ∧
          ∀ other ∈ cache.ids, other ≠ id → asked.idxOf other < asked.idxOf id) := by
  intro cache asked
  obtain ⟨hcapacity, hids⟩ : cache.capacity = settings.capacity ∧
    cache.ids = recent settings.capacity asked := ids_run settings calls
  have hsize : cache.size ≤ settings.capacity := by
    rw [size_eq, hids]
    exact List.length_take_le ..
  refine ⟨hids, fun g => contains_iff, size_eq cache, hsize, hids ▸ nodup_recent _ _,
    fun g e => (cache.gets g).serves.error_iff, fun g e => (cache.gets g).serves.eq_of_error, ?_⟩
  intro g id hbefore hafter
  obtain ⟨hfull, front, hfront, hget⟩ :=
    (cache.gets g).serves.evicts_last (hcapacity ▸ size_eq cache ▸ hsize) hbefore hafter
  refine ⟨(size_eq cache).trans (hfull.trans hcapacity), ⟨front, hfront, hget⟩,
    fun other hother hne => ?_⟩
  -- The identities stand in the order of their latest requests, and `id` stands last.
  have hordered : cache.ids.Pairwise fun a b => asked.idxOf a < asked.idxOf b :=
    hids ▸ (pairwise_idxOf_eraseDups asked).sublist (List.take_sublist _ _)
  rw [hfront] at hordered hother
  have hmem : other ∈ front := by simpa [hne] using hother
  exact (List.pairwise_append.1 hordered).2.2 other hmem id (List.mem_singleton_self id)

/-- In a cache for two converters the second grammar is pushed out by the third, since the first
one has been asked for again. -/
theorem run_recency_evicts :
    let settings : Settings := { capacity := 2 }
    let calls : List Call := [.get ⟨1, .ofC⟩, .get ⟨2, .ofC⟩, .contains ⟨2, .ofC⟩, .get ⟨1, .ofC⟩]
    let start : Cache (RecencyList UInt64 CachedConverter) := ofSettings settings
    let cache := start.run calls
    cache.ids = [1, 2] ∧ (cache.get ⟨3, .ofC⟩).2.ids = [3, 1] ∧
      ∀ other ∈ cache.ids, other ≠ 2 →
        (requests (start.log calls)).idxOf other < (requests (start.log calls)).idxOf 2 := by
  intro settings calls start cache
  have hbefore : cache.ids = [1, 2] := rfl
  have hafter : (cache.get ⟨3, .ofC⟩).2.ids = [3, 1] := rfl
  obtain ⟨-, -, hordered⟩ :=
    (run_recency (σ := RecencyList UInt64 CachedConverter) settings calls).2.2.2.2.2.2.2 ⟨3, .ofC⟩ 2
      (show 2 ∈ cache.ids by rw [hbefore]; decide)
      (show 2 ∉ (cache.get ⟨3, .ofC⟩).2.ids by rw [hafter]; decide)
  exact ⟨hbefore, hafter, hordered⟩

end Cache

end TypedSyntax
