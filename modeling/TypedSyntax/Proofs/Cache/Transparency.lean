import TypedSyntax.Proofs.Cache.Calls
import TypedSyntax.Proofs.CGrammar
import TypedSyntax.Proofs.Converter.Correspondence
import TypedSyntax.Store.RecencyList

/-!
# Caches cannot be seen

Conversion with a cache gives what conversion with a new converter gives. A cache knows a grammar
by its identity only, so this is a statement about a `Session`, in which grammars get their
identities: a grammar is entered in the catalogue, a handle is copied, and calls are made with the
handles that there are.

The invariant is `Session.Sound`. The grammar of every handle has been entered under its identity,
and every converter in the cache is the one for a grammar that has been entered under the identity
it is kept under, with the settings of the cache. Since a catalogue only grows, what has been
entered stays so (`Catalogue.Gives.enter`), and as long as identities have not been counted round,
there is one grammar for each of them (`Catalogue.Gives.unique`). So a converter that was made for
an identity is right for every handle with this identity.

* `Session.conversions_eq`: in every session that can come about, and with every handle in it, the
  cache encodes and decodes as a converter does that has just been made, errors included. Of the
  store it is enough to know that it is honest; when it drops a converter does not matter.
-/

namespace TypedSyntax

/-- The converter for a grammar, made for one use. A cache that gives out anything else can be told
from having no cache. -/
def Converter.fresh (settings : Settings) (g : Grammar) : Except ConvertError Converter :=
  (Converter.resolve g none).map (·.withSettings settings)

/-! ### Identities -/

namespace Catalogue

/-- The identity that a grammar gets after `n` others. -/
def idAt (n : Nat) : UInt64 :=
  UInt64.ofNat (n + 1)

/-- A grammar has been entered under an identity. This does not say that no other one has been
entered under it since the count may have gone round. -/
def Gives (catalogue : Catalogue) (id : UInt64) (g : Grammar) : Prop :=
  ∃ n, catalogue.grammars[n]? = some g ∧ id = idAt n

variable {catalogue : Catalogue} {id : UInt64} {g g' : Grammar}

theorem idAt_succ (n : Nat) : idAt (n + 1) = idAt n + 1 :=
  UInt64.ofNat_add (n + 1) 1

/-- Counting up goes round after 2 ^ 64 steps, and not before. -/
theorem idAt_inj {n m : Nat} (hn : n < UInt64.size) (hm : m < UInt64.size) (h : idAt n = idAt m) :
    n = m := by
  -- The count starts with one, so it is the successors that are compared.
  have hmod : (n + 1) % UInt64.size = (m + 1) % UInt64.size := by
    have h := congrArg UInt64.toNat h
    simpa only [idAt, UInt64.toNat_ofNat'] using h
  unfold UInt64.size at *
  omega

/-- A grammar that has been entered stays so. Entering puts a grammar behind all others, whose
places do not change. -/
theorem Gives.enter (h : catalogue.Gives id g) (new : Grammar) :
    (catalogue.enter new).2.Gives id g := by
  obtain ⟨n, hn, hid⟩ := h
  obtain ⟨hlt, -⟩ := Array.getElem?_eq_some_iff.1 hn
  refine ⟨n, ?_, hid⟩
  change (catalogue.grammars.push new)[n]? = some g
  rw [Array.getElem?_push, if_neg (Nat.ne_of_lt hlt), hn]

/-- **An identity stands for one grammar**, unless more grammars have been entered than there are
identities. -/
theorem Gives.unique (hsize : catalogue.grammars.size ≤ UInt64.size) (h : catalogue.Gives id g)
    (h' : catalogue.Gives id g') : g = g' := by
  obtain ⟨n, hn, rfl⟩ := h
  obtain ⟨m, hm, hid⟩ := h'
  have hnlt : n < UInt64.size := Nat.lt_of_lt_of_le (Array.getElem?_eq_some_iff.1 hn).1 hsize
  have hmlt : m < UInt64.size := Nat.lt_of_lt_of_le (Array.getElem?_eq_some_iff.1 hm).1 hsize
  obtain rfl := idAt_inj hnlt hmlt hid
  exact Option.some.inj (hn.symm.trans hm)

end Catalogue

/-! ### Sessions -/

/-- The grammars with their identities, the handles that are about, and a cache. -/
structure Session (σ : Type) where
  catalogue : Catalogue := {}
  handles : List Handle := []
  cache : Cache σ

namespace Session

variable {σ : Type} [RecencyStore σ UInt64 CachedConverter]

/-- What can happen in a session. -/
inductive Step : Session σ → Session σ → Prop where
  /-- A grammar is entered. -/
  | enter (s : Session σ) (g : Grammar) :
      Step s { s with
        catalogue := (s.catalogue.enter g).2
        handles := (s.catalogue.enter g).1 :: s.handles }
  /-- A handle is copied. -/
  | copy (s : Session σ) {h : Handle} (hh : h ∈ s.handles) :
      Step s { s with handles := h :: s.handles }
  /-- A call is made, with a handle that there is if it asks for a converter. -/
  | call (s : Session σ) {c : Cache.Call} (hc : ∀ g, c.request? = some g → g ∈ s.handles) :
      Step s { s with cache := s.cache.after c }

/-- The sessions that can come about from an empty cache. -/
inductive Reachable (settings : Settings) : Session σ → Prop where
  | start : Reachable settings { cache := .ofSettings settings }
  | step {s s' : Session σ} : Reachable settings s → Step s s' → Reachable settings s'

/-- The converter of an entry is the one for a grammar that has its identity. -/
def Backed (settings : Settings) (catalogue : Catalogue) (entry : UInt64 × CachedConverter) :
    Prop :=
  ∃ g, catalogue.Gives entry.1 g ∧ Converter.fresh settings g = .ok entry.2.converter

/-- Handles and entries agree with the catalogue. -/
structure Sound (settings : Settings) (s : Session σ) : Prop where
  settings_eq : s.cache.settings = settings
  /-- The identities have been given out one after the other. -/
  next_eq : s.catalogue.next = Catalogue.idAt s.catalogue.grammars.size
  /-- Every handle has the grammar of its identity. -/
  handles : ∀ h ∈ s.handles, s.catalogue.Gives h.id h.grammar
  /-- Every converter in the cache is the one for its identity. -/
  entries : ∀ entry ∈ s.cache.entries, Backed settings s.catalogue entry

section Sound

variable {settings : Settings} {s s' : Session σ} {g : Handle}

/-! ### The invariant -/

/-- Entering a grammar keeps the invariant. The new handle has the grammar of its identity, and what
is backed by a grammar stays so, although it may now be backed by another one as well. -/
theorem Sound.enter (h : Sound settings s) (g : Grammar) :
    Sound settings { s with
      catalogue := (s.catalogue.enter g).2
      handles := (s.catalogue.enter g).1 :: s.handles } where
  settings_eq := h.settings_eq
  next_eq := by
    change s.catalogue.next + 1 = Catalogue.idAt (s.catalogue.grammars.push g).size
    rw [h.next_eq, Array.size_push, Catalogue.idAt_succ]
  handles := by
    refine List.forall_mem_cons.2 ⟨?_, fun handle hhandle => ?_⟩
    · exact ⟨s.catalogue.grammars.size, Array.getElem?_push_size, h.next_eq⟩
    · exact (h.handles handle hhandle).enter g
  entries entry hentry :=
    have ⟨g', hg', hfresh⟩ := h.entries entry hentry
    ⟨g', hg'.enter g, hfresh⟩

/-- What is backed under the identity of a handle is the converter for its grammar. -/
theorem Sound.fresh_of_backed (h : Sound settings s)
    (hsize : s.catalogue.grammars.size ≤ UInt64.size) (hg : g ∈ s.handles) {c : CachedConverter}
    (hc : Backed settings s.catalogue (g.id, c)) :
    Converter.fresh settings g.grammar = .ok c.converter := by
  obtain ⟨g', hg', hfresh⟩ := hc
  obtain rfl : g.grammar = g' := (h.handles g hg).unique hsize hg'
  exact hfresh

variable [RecencyStore.Honest σ]

/-- What a request puts into the cache, and what it returns, is backed by the grammar of its
handle. -/
theorem Sound.get_backed (h : Sound settings s) (hg : g ∈ s.handles) :
    (∀ entry ∈ (s.cache.get g).2.entries, Backed settings s.catalogue entry) ∧
      ∀ c, (s.cache.get g).1 = .ok c → Backed settings s.catalogue (g.id, c) := by
  refine (s.cache.gets g).forall_entries h.entries fun c serial hc => ?_
  refine ⟨g.grammar, h.handles g hg, ?_⟩
  rw [Converter.fresh, hc, h.settings_eq]
  rfl

/-- A request with a handle keeps the invariant. -/
theorem Sound.get (h : Sound settings s) (hg : g ∈ s.handles) :
    Sound settings { s with cache := (s.cache.get g).2 } where
  settings_eq := by rw [(s.cache.gets g).settings_eq, h.settings_eq]
  next_eq := h.next_eq
  handles := h.handles
  entries := (h.get_backed hg).1

/-- A call keeps the invariant, since it asks for a converter with a handle or not at all. -/
theorem Sound.call (h : Sound settings s) {c : Cache.Call}
    (hc : ∀ g, c.request? = some g → g ∈ s.handles) :
    Sound settings { s with cache := s.cache.after c } := by
  rcases s.cache.after_cases c with ⟨g, hrequest, hafter⟩ | ⟨-, hafter⟩ | ⟨-, -, hafter⟩
  · rw [hafter]
    exact h.get (hc g hrequest)
  · -- In an empty cache there is nothing to be backed.
    rw [hafter]
    refine ⟨h.settings_eq, h.next_eq, h.handles, fun entry hentry => ?_⟩
    rw [Cache.entries_clear] at hentry
    exact absurd hentry List.not_mem_nil
  · rw [hafter]
    exact h

theorem Sound.step (h : Sound settings s) (hstep : Step s s') : Sound settings s' := by
  cases hstep with
  | enter g => exact h.enter g
  | copy hh =>
    exact ⟨h.settings_eq, h.next_eq, List.forall_mem_cons.2 ⟨h.handles _ hh, h.handles⟩, h.entries⟩
  | call hc => exact h.call hc

theorem Sound.start (settings : Settings) :
    Sound settings ({ cache := .ofSettings settings } : Session σ) where
  settings_eq := rfl
  next_eq := rfl
  handles := nofun
  entries entry hentry := by
    rw [Cache.entries_ofSettings] at hentry
    exact absurd hentry List.not_mem_nil

/-- Every session is sound. It starts with nothing that could be wrong, and each step keeps it. -/
theorem Reachable.sound (h : Reachable settings s) : Sound settings s := by
  induction h with
  | start => exact .start settings
  | step _ hstep ih => exact ih.step hstep

/-! ### Requests and conversions -/

/-- A request gives what is made without a cache, apart from the serial number, by which converters
for one grammar may differ. -/
theorem Sound.get_converter (h : Sound settings s) (hsize : s.catalogue.grammars.size ≤ UInt64.size)
    (hg : g ∈ s.handles) :
    (s.cache.get g).1.map (·.converter) = Converter.fresh settings g.grammar := by
  cases hget : (s.cache.get g).1 with
  -- A converter is backed under the identity of the handle; an error is that of making one.
  | ok c => exact (h.fresh_of_backed hsize hg ((h.get_backed hg).2 c hget)).symm
  | error e =>
    rw [Converter.fresh, (s.cache.gets g).resolve_of_error hget]
    rfl

/-- What is done with the converter of a request is done with a new one. -/
theorem Sound.get_bind {α : Type} (h : Sound settings s)
    (hsize : s.catalogue.grammars.size ≤ UInt64.size) (hg : g ∈ s.handles)
    (use : Converter → Except ConvertError α) :
    ((s.cache.get g).1 >>= fun c => use c.converter) =
      (Converter.resolve g.grammar none >>= fun c => use (c.withSettings settings)) :=
  calc ((s.cache.get g).1 >>= fun c => use c.converter)
      = (s.cache.get g).1.map (·.converter) >>= use := (bind_map_left ..).symm
    _ = Converter.fresh settings g.grammar >>= use := by rw [h.get_converter hsize hg]
    _ = (Converter.resolve g.grammar none >>= fun c => use (c.withSettings settings)) :=
      bind_map_left ..

end Sound

/-- **A cache changes nothing about conversion.** Whatever has been kept, pushed out or cleared
before, encoding and decoding give what a converter gives that is made for them, and fail if it
cannot be made or fails itself. The store may be any honest one, and grammars may have been entered
as long as there were identities for them. -/
theorem conversions_eq {σ : Type} [RecencyStore σ UInt64 CachedConverter] [RecencyStore.Honest σ]
    {settings : Settings} {s : Session σ} (h : Reachable settings s)
    (hsize : s.catalogue.grammars.size ≤ UInt64.size) {g : Handle} (hg : g ∈ s.handles)
    (n : Node) (t : Tree) :
    (s.cache.encode g n).1 =
        (Converter.resolve g.grammar none >>= fun c => (c.withSettings settings).encode n) ∧
      (s.cache.decode g t).1 =
        (Converter.resolve g.grammar none >>= fun c => (c.withSettings settings).decode t) := by
  rw [Cache.encode_eq, Cache.decode_eq]
  exact ⟨h.sound.get_bind hsize hg (·.encode n), h.sound.get_bind hsize hg (·.decode t)⟩

/-- A cache for one converter, with a marker of its own: the converter for the first grammar has
been pushed out by the one for the second. -/
theorem conversions_eq_evicted :
    let settings : Settings := { marker := '\u0120', capacity := 1 }
    let c := Converter.ofC none settings
    ∃ s : Session (RecencyList UInt64 CachedConverter), Reachable settings s ∧
      s.catalogue.grammars.size = 2 ∧ ⟨1, .ofC⟩ ∈ s.handles ∧
      s.cache.contains ⟨1, .ofC⟩ = false ∧ s.cache.contains ⟨2, .ofC⟩ = true ∧
      (s.cache.encode ⟨1, .ofC⟩ ⟨.id, [.text "foo"]⟩).1 =
        .ok (.ofName (c.tokenLeaf .ident "foo")) ∧
      (s.cache.decode ⟨1, .ofC⟩ (.ofName (c.subwordLeaf .ident ["\u0120fo", "o"]))).1 =
        .ok ⟨.id, [.text "foo"]⟩ := by
  intro settings c
  have hstart : Reachable (σ := RecencyList UInt64 CachedConverter) settings
    { cache := .ofSettings settings } := .start
  have hentered := (hstart.step (.enter _ .ofC)).step (.enter _ .ofC)
  have hgot := hentered.step (.call _ (c := .get ⟨1, .ofC⟩)
    (by rintro _ ⟨⟩; exact .tail _ (.head _)))
  have hreachable := hgot.step (.call _ (c := .get ⟨2, .ofC⟩) (by rintro _ ⟨⟩; exact .head _))
  obtain ⟨hencode, hdecode⟩ := conversions_eq hreachable (by decide) (g := ⟨1, .ofC⟩)
    (.tail _ (.head _)) ⟨.id, [.text "foo"]⟩ (.ofName (c.subwordLeaf .ident ["\u0120fo", "o"]))
  exact ⟨_, hreachable, rfl, .tail _ (.head _), rfl, rfl, hencode.trans rfl, hdecode.trans rfl⟩

end Session

end TypedSyntax
