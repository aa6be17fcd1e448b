import TypedSyntax.Cache
import TypedSyntax.Proofs.Except
import TypedSyntax.Proofs.Store.Change

/-!
# Calls of a cache

What can be asked of a cache is a `Cache.Call`, and a history is a list of calls. Only requests for
a converter and clearing change a cache. A request is looking, making and storing, one after the
other, and stops when it has a converter or cannot get one; this is said once, as `Cache.Gets`, and
later proofs take a request apart with `Cache.gets` and do not look into `Cache.get`.

What the single steps do to the entries of a cache depends on what is known about its store. If the
store is honest, what is found or stored is an old entry or the new one. If it is lawful, each step
is a `Cache.Change`.
-/

namespace TypedSyntax

namespace Cache

variable {σ : Type} [RecencyStore σ UInt64 CachedConverter]

/-- What can be asked of a cache. Making a converter or looking for one are no calls of their own:
they are parts of a request. -/
inductive Call where
  | get (g : Handle)
  | contains (g : Handle)
  | size
  | clear
  | encode (g : Handle) (n : Node)
  | decode (g : Handle) (t : Tree)

/-- The grammar for which a call asks for a converter. -/
def Call.request? : Call → Option Handle
  | get g | encode g _ | decode g _ => some g
  | contains _ | size | clear => none

/-- The cache after a call, whatever the call has returned. -/
def after (cache : Cache σ) : Call → Cache σ
  | .get g => (cache.get g).2
  | .contains _ | .size => cache
  | .clear => cache.clear
  | .encode g n => (cache.encode g n).2
  | .decode g t => (cache.decode g t).2

/-- The cache after a list of calls. -/
def run (cache : Cache σ) (calls : List Call) : Cache σ :=
  calls.foldl after cache

/-- The identities of grammars with their converters, the most recently used first. -/
def entries (cache : Cache σ) : List (UInt64 × CachedConverter) :=
  RecencyStore.entries cache.converters

/-- The identities of the grammars in the cache, the most recently used first. -/
def ids (cache : Cache σ) : List UInt64 :=
  cache.entries.map Prod.fst

/-! ### Requests -/

/-- What a request for a converter goes through, what it returns, and the cache behind it. -/
inductive Gets (cache : Cache σ) (g : Handle) :
    Except ConvertError CachedConverter → Cache σ → Prop where
  /-- The first look finds a converter. -/
  | hit {c : CachedConverter} {cache' : Cache σ} (h : cache.lookup g = (some c, cache')) :
      Gets cache g (.ok c) cache'
  /-- It finds none, and none can be made. -/
  | refused {e : ConvertError} {cache' : Cache σ} (h : cache.lookup g = (none, cache'))
      (hmake : cache'.make g = .error e) : Gets cache g (.error e) cache'
  /-- It finds none, and one is made, which is stored unless there is one by then. -/
  | stored {c new : CachedConverter} {cache₁ cache₂ cache' : Cache σ}
      (h : cache.lookup g = (none, cache₁)) (hmake : cache₁.make g = .ok (new, cache₂))
      (hstore : cache₂.store g new = (c, cache')) : Gets cache g (.ok c) cache'

/-- Every request is one of these. This is the only place where `Cache.get` is unfolded. -/
theorem gets (cache : Cache σ) (g : Handle) : Gets cache g (cache.get g).1 (cache.get g).2 := by
  unfold get
  -- What the first look finds decides whether one is made, and that whether the second look comes.
  rcases hlookup : cache.lookup g with ⟨_ | c, cache₁⟩
  · cases hmake : cache₁.make g with
    | error e =>
      simp only [hmake]
      exact .refused hlookup hmake
    | ok made =>
      simp only [hmake]
      exact .stored hlookup hmake rfl
  · exact .hit hlookup

omit [RecencyStore σ UInt64 CachedConverter] in
/-- A converter that is made is the one for the grammar, under the next serial number. -/
theorem make_eq_ok {cache cache' : Cache σ} {g : Handle} {new : CachedConverter}
    (h : cache.make g = .ok (new, cache')) :
    ∃ c, Converter.resolve g.grammar none = .ok c ∧
      new = ⟨cache.made, c.withSettings cache.settings⟩ ∧
        cache' = { cache with made := cache.made + 1 } := by
  obtain ⟨c, hc, heq⟩ := map_eq_ok_iff.1 h
  obtain ⟨rfl, rfl⟩ := Prod.mk.inj heq
  exact ⟨c, hc, rfl, rfl⟩

omit [RecencyStore σ UInt64 CachedConverter] in
/-- Making a converter fails as resolving one for the grammar does. -/
theorem make_eq_error {cache : Cache σ} {g : Handle} {e : ConvertError}
    (h : cache.make g = .error e) : Converter.resolve g.grammar none = .error e := by
  unfold make at h
  cases hc : Converter.resolve g.grammar none with
  | error e' => simpa [hc, Except.map] using h
  | ok c => simp [hc, Except.map] at h

section Gets

variable {cache cache' : Cache σ} {g : Handle} {c new : CachedConverter}
  {r : Except ConvertError CachedConverter}

theorem settings_of_lookup {found : Option CachedConverter} (h : cache.lookup g = (found, cache')) :
    cache'.settings = cache.settings := by
  obtain rfl : _ = cache' := congrArg Prod.snd h
  rfl

theorem settings_of_store (h : cache.store g new = (c, cache')) :
    cache'.settings = cache.settings := by
  unfold store at h
  rcases hlookup : cache.lookup g with ⟨_ | d, cache₁⟩ <;> rw [hlookup] at h
  all_goals
    have hsame := settings_of_lookup hlookup
    obtain ⟨rfl, rfl⟩ := Prod.mk.inj h
    exact hsame

/-- Settings are given to a cache once and for all. -/
theorem Gets.settings_eq (h : Gets cache g r cache') : cache'.settings = cache.settings := by
  cases h with
  | hit hlookup | refused hlookup _ => exact settings_of_lookup hlookup
  | stored hlookup hmake hstore =>
    have hsame := settings_of_lookup hlookup
    obtain ⟨-, -, -, rfl⟩ := make_eq_ok hmake
    exact (settings_of_store hstore).trans hsame

/-- A request fails only if no converter can be made. -/
theorem Gets.resolve_of_error {e : ConvertError} (h : Gets cache g r cache') (he : r = .error e) :
    Converter.resolve g.grammar none = .error e := by
  cases h with
  | refused _ hmake =>
    obtain rfl := Except.error.inj he
    exact make_eq_error hmake
  | hit _ | stored _ _ _ => exact absurd he nofun

end Gets

/-! ### Steps, with an honest store -/

section Honest

variable [RecencyStore.Honest σ] {cache cache' : Cache σ} {g : Handle} {c new : CachedConverter}
  {found : Option CachedConverter} {r : Except ConvertError CachedConverter}

theorem entries_ofSettings (settings : Settings) : (ofSettings settings : Cache σ).entries = [] :=
  RecencyStore.Honest.entries_new _

theorem entries_clear (cache : Cache σ) : cache.clear.entries = [] :=
  RecencyStore.Honest.entries_clear _

theorem mem_entries_of_lookup (h : cache.lookup g = (some c, cache')) :
    (g.id, c) ∈ cache.entries :=
  RecencyStore.Honest.mem_of_get (congrArg Prod.fst h)

/-- Looking for a converter brings nothing in, whether it finds one or not. -/
theorem entries_lookup_subset (h : cache.lookup g = (found, cache')) :
    cache'.entries ⊆ cache.entries := by
  obtain rfl : _ = cache' := congrArg Prod.snd h
  exact RecencyStore.Honest.entries_get_subset ..

/-- What storing returns is an old entry or the new one, and nothing else comes in. -/
theorem store_subset (h : cache.store g new = (c, cache')) :
    (g.id, c) ∈ (g.id, new) :: cache.entries ∧ cache'.entries ⊆ (g.id, new) :: cache.entries := by
  unfold store at h
  rcases hlookup : cache.lookup g with ⟨_ | d, cache₁⟩
  · -- Nothing is found, so the new one is pushed.
    rw [hlookup] at h
    obtain ⟨rfl, rfl⟩ := Prod.mk.inj h
    refine ⟨List.mem_cons_self, List.Subset.trans
      (RecencyStore.Honest.entries_push_subset cache₁.converters g.id new) ?_⟩
    exact List.cons_subset_cons _ (entries_lookup_subset hlookup)
  · -- The converter that is found is given out, and the new one is dropped.
    rw [hlookup] at h
    obtain ⟨rfl, rfl⟩ := Prod.mk.inj h
    exact ⟨List.mem_cons_of_mem _ (mem_entries_of_lookup hlookup),
      List.subset_cons_of_subset _ (entries_lookup_subset hlookup)⟩

/-- What holds of every entry holds of every entry behind a request and of what it returns, if it
holds of the one that may be new. -/
theorem Gets.forall_entries {p : UInt64 × CachedConverter → Prop} (h : Gets cache g r cache')
    (hold : ∀ entry ∈ cache.entries, p entry)
    (hnew : ∀ c serial, Converter.resolve g.grammar none = .ok c →
      p (g.id, ⟨serial, c.withSettings cache.settings⟩)) :
    (∀ entry ∈ cache'.entries, p entry) ∧ ∀ c, r = .ok c → p (g.id, c) := by
  cases h with
  | hit hlookup =>
    refine ⟨fun entry hentry => hold entry (entries_lookup_subset hlookup hentry), ?_⟩
    rintro _ ⟨⟩
    exact hold _ (mem_entries_of_lookup hlookup)
  | refused hlookup _ =>
    exact ⟨fun entry hentry => hold entry (entries_lookup_subset hlookup hentry), nofun⟩
  | stored hlookup hmake hstore =>
    -- Between the two looks the cache only counts, so both speak of the same entries.
    obtain ⟨c, hc, rfl, rfl⟩ := make_eq_ok hmake
    obtain ⟨hreturned, hentries⟩ := store_subset hstore
    obtain rfl : _ = _ := congrArg Prod.snd hlookup
    have hall : ∀ entry ∈ (g.id, _) :: (cache.lookup g).2.entries, p entry :=
      List.forall_mem_cons.2 ⟨hnew c cache.made hc,
        fun entry hentry => hold entry (entries_lookup_subset rfl hentry)⟩
    refine ⟨fun entry hentry => hall entry (hentries hentry), ?_⟩
    rintro _ ⟨⟩
    exact hall _ hreturned

end Honest

/-! ### Steps, with a lawful store -/

/-- What one step can do to a cache, and the entry that it brings in, if it brings in one. -/
structure Change (cache : Cache σ) (new? : Option (UInt64 × CachedConverter))
    (cache' : Cache σ) : Prop where
  settings_eq : cache'.settings = cache.settings
  capacity_eq : cache'.capacity = cache.capacity
  /-- Converters are counted as they are made, and never uncounted. -/
  made_le : cache.made ≤ cache'.made
  /-- The store goes through one of the changes that there are. -/
  entries : RecencyStore.Change cache.capacity cache.entries new? cache'.entries

theorem Change.refl (cache : Cache σ) : cache.Change none cache :=
  ⟨rfl, rfl, Nat.le_refl _, .same⟩

section Lawful

variable [RecencyStore.Lawful σ] {cache cache' : Cache σ} {g : Handle} {c new : CachedConverter}
  {found : Option CachedConverter}

/-- Looking for a converter that is there is a use of it. -/
theorem promotes_of_lookup (h : cache.lookup g = (some c, cache')) :
    RecencyStore.Promotes (g.id, c) cache.entries cache'.entries := by
  obtain rfl : _ = cache' := congrArg Prod.snd h
  exact RecencyStore.Lawful.promotes_of_get (congrArg Prod.fst h)

/-- Nothing is found only if there is nothing, and then nothing moves. -/
theorem not_mem_ids_of_lookup (h : cache.lookup g = (none, cache')) :
    g.id ∉ cache.ids ∧ cache'.entries = cache.entries := by
  obtain rfl : _ = cache' := congrArg Prod.snd h
  exact ⟨RecencyStore.Lawful.not_mem_of_get (congrArg Prod.fst h),
    RecencyStore.Lawful.entries_get (congrArg Prod.fst h)⟩

/-- The first step of a request brings nothing in. -/
theorem change_of_lookup (h : cache.lookup g = (found, cache')) : cache.Change none cache' := by
  have hentries : RecencyStore.Change cache.capacity cache.entries none cache'.entries := by
    cases found with
    | none =>
      rw [(not_mem_ids_of_lookup h).2]
      exact .same
    | some c => exact .promoted (promotes_of_lookup h)
  obtain rfl : _ = cache' := congrArg Prod.snd h
  exact ⟨rfl, RecencyStore.Lawful.capacity_get .., Nat.le_refl _, hentries⟩

omit [RecencyStore.Lawful σ] in
/-- A converter that is made is not in the cache yet. It only has been counted. -/
theorem change_of_make (h : cache.make g = .ok (new, cache')) : cache.Change none cache' := by
  obtain ⟨-, -, -, rfl⟩ := make_eq_ok h
  exact ⟨rfl, rfl, Nat.le_succ _, .same⟩

theorem change_clear (cache : Cache σ) : cache.Change none cache.clear where
  settings_eq := rfl
  capacity_eq := RecencyStore.Lawful.capacity_clear _
  made_le := Nat.le_refl _
  entries := by
    rw [entries_clear]
    exact .cleared

/-- The second look finds a converter, which is then given out, or the new one is stored. -/
theorem store_cases (h : cache.store g new = (c, cache')) :
    (RecencyStore.Promotes (g.id, c) cache.entries cache'.entries ∧ cache.Change none cache') ∨
      (g.id ∉ cache.ids ∧ c = new ∧
        cache'.entries = RecencyStore.insertFirst cache.capacity (g.id, new) cache.entries ∧
          cache.Change (some (g.id, new)) cache') := by
  unfold store at h
  rcases hlookup : cache.lookup g with ⟨_ | d, cache₁⟩
  · rw [hlookup] at h
    obtain ⟨rfl, rfl⟩ := Prod.mk.inj h
    obtain ⟨hnot, hsame⟩ := not_mem_ids_of_lookup hlookup
    obtain ⟨hsettings, hcapacity, hmade, -⟩ := change_of_lookup hlookup
    -- The law about a new key is about the store behind the look, which has the same entries.
    have hnot₁ : g.id ∉ cache₁.ids := by rwa [ids, hsame]
    have hentries : RecencyStore.entries (RecencyStore.push cache₁.converters g.id new) =
        RecencyStore.insertFirst cache.capacity (g.id, new) cache.entries := by
      rw [RecencyStore.Lawful.entries_push new hnot₁, ← hcapacity, ← hsame]
      rfl
    refine .inr ⟨hnot, rfl, hentries, hsettings, ?_, hmade, ?_⟩
    · exact (RecencyStore.Lawful.capacity_push ..).trans hcapacity
    · change RecencyStore.Change _ _ _ (RecencyStore.entries (RecencyStore.push ..))
      rw [hentries]
      exact .inserted hnot
  · rw [hlookup] at h
    obtain ⟨rfl, rfl⟩ := Prod.mk.inj h
    exact .inl ⟨promotes_of_lookup hlookup, change_of_lookup hlookup⟩

theorem change_of_store (h : cache.store g new = (c, cache')) :
    ∃ new?, cache.Change new? cache' := by
  rcases store_cases h with ⟨-, hchange⟩ | ⟨-, -, -, hchange⟩ <;> exact ⟨_, hchange⟩

theorem Gets.capacity_eq {r : Except ConvertError CachedConverter} (h : Gets cache g r cache') :
    cache'.capacity = cache.capacity := by
  cases h with
  | hit hlookup | refused hlookup _ => exact (change_of_lookup hlookup).capacity_eq
  | stored hlookup hmake hstore =>
    obtain ⟨_, hstored⟩ := change_of_store hstore
    exact hstored.capacity_eq.trans
      ((change_of_make hmake).capacity_eq.trans (change_of_lookup hlookup).capacity_eq)

end Lawful

/-! ### Calls -/

theorem encode_eq (cache : Cache σ) (g : Handle) (n : Node) :
    cache.encode g n = ((cache.get g).1 >>= fun c => c.converter.encode n, (cache.get g).2) := by
  unfold encode
  rcases cache.get g with ⟨e | c, cache'⟩ <;> rfl

theorem decode_eq (cache : Cache σ) (g : Handle) (t : Tree) :
    cache.decode g t = ((cache.get g).1 >>= fun c => c.converter.decode t, (cache.get g).2) := by
  unfold decode
  rcases cache.get g with ⟨e | c, cache'⟩ <;> rfl

/-- A call asks for a converter, or empties the cache, or leaves it as it is. -/
theorem after_cases (cache : Cache σ) (call : Call) :
    (∃ g, call.request? = some g ∧ cache.after call = (cache.get g).2) ∨
      (call = .clear ∧ cache.after call = cache.clear) ∨
      (call.request? = none ∧ call ≠ .clear ∧ cache.after call = cache) := by
  cases call with
  | get g => exact .inl ⟨g, rfl, rfl⟩
  | encode g n => exact .inl ⟨g, rfl, congrArg Prod.snd (cache.encode_eq g n)⟩
  | decode g t => exact .inl ⟨g, rfl, congrArg Prod.snd (cache.decode_eq g t)⟩
  | clear => exact .inr (.inl ⟨rfl, rfl⟩)
  | contains g => exact .inr (.inr ⟨rfl, nofun, rfl⟩)
  | size => exact .inr (.inr ⟨rfl, nofun, rfl⟩)

end Cache

end TypedSyntax
