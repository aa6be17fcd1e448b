import Mathlib.Data.List.Nodup
import TypedSyntax.Proofs.Node.Shape
import TypedSyntax.Store.Basic

/-!
# What the entries of a store go through

Whatever is done with a lawful store, its list of entries changes in one of four ways, which are the
constructors of `RecencyStore.Change`: nothing happens, an entry comes to the first place, an entry
comes in under a key that was not there, or everything goes. Only the third way brings something
in, and this is why two facts carry over from before: keys that occur once go on to occur once
(`Change.nodup`), and a store that is not overfull does not become so (`Change.length_le`).

* `RecencyStore.Change.lookup_eq`: a value that is not lost stays the same value. This needs that
  keys occur once, since otherwise another value could come out from behind it.
-/

namespace TypedSyntax

/-- What is found under a key is listed under it. -/
theorem mem_of_lookup {κ β : Type} [BEq κ] [LawfulBEq κ] {l : List (κ × β)} {key : κ} {value : β}
    (h : l.lookup key = some value) : (key, value) ∈ l := by
  obtain ⟨before, after, rfl, -⟩ := List.lookup_eq_some_iff.1 h
  simp

namespace RecencyStore

variable {κ α : Type} {capacity : Nat} {entry : κ × α} {old new : List (κ × α)}

/-! ### The two ways of an entry to the first place -/

/-- No entry comes or goes. -/
theorem Promotes.perm (h : Promotes entry old new) : new.Perm old := by
  obtain ⟨before, after, rfl, rfl⟩ := h
  exact List.perm_middle.symm

theorem Promotes.mem (h : Promotes entry old new) : entry ∈ old := by
  obtain ⟨before, after, rfl, -⟩ := h
  simp

theorem Promotes.exists_eq_cons (h : Promotes entry old new) : ∃ others, new = entry :: others := by
  obtain ⟨before, after, -, hnew⟩ := h
  exact ⟨_, hnew⟩

/-- What is promoted goes from its place among the keys, which come only once, to the first one. -/
theorem Promotes.keys_eq [DecidableEq κ] (h : Promotes entry old new)
    (hnodup : (old.map Prod.fst).Nodup) :
    new.map Prod.fst = entry.1 :: (old.map Prod.fst).erase entry.1 := by
  obtain ⟨before, after, rfl, rfl⟩ := h
  simp only [List.map_append, List.map_cons] at hnodup ⊢
  have hnot : entry.1 ∉ before.map Prod.fst := fun hmem =>
    (List.nodup_append.1 hnodup).2.2 _ hmem _ List.mem_cons_self rfl
  rw [List.erase_append_right _ hnot, List.erase_cons_head]

/-- The others stay in their order, and at most one of them goes. -/
theorem insertFirst_sublist (capacity : Nat) (entry : κ × α) (entries : List (κ × α)) :
    (insertFirst capacity entry entries).Sublist (entry :: entries) := by
  refine List.Sublist.cons_cons _ ?_
  split
  · exact List.Sublist.refl _
  · exact List.dropLast_sublist _

/-- A store that is not overfull keeps as many entries as there is room for. -/
theorem insertFirst_eq_take {entries : List (κ × α)} (hpos : 0 < capacity)
    (h : entries.length ≤ capacity) :
    insertFirst capacity entry entries = (entry :: entries).take capacity := by
  -- The new entry always stays, so there has to be room for one.
  obtain ⟨m, rfl⟩ := Nat.exists_eq_add_one.2 hpos
  rw [insertFirst, List.take_succ_cons]
  split
  · next hroom => rw [List.take_of_length_le (Nat.le_of_lt_succ hroom)]
  · next hfull => rw [List.dropLast_eq_take, Nat.le_antisymm h (Nat.not_lt.1 hfull),
      Nat.add_sub_cancel]

/-! ### Changes -/

/-- What can happen to the entries of a store, and the entry that comes in, if one does. -/
inductive Change (capacity : Nat) (old : List (κ × α)) :
    Option (κ × α) → List (κ × α) → Prop where
  | same : Change capacity old none old
  /-- An entry comes to the first place. -/
  | promoted {entry : κ × α} {new : List (κ × α)} (h : Promotes entry old new) :
      Change capacity old none new
  /-- An entry comes in under a key that is not there. -/
  | inserted {entry : κ × α} (h : entry.1 ∉ old.map Prod.fst) :
      Change capacity old (some entry) (insertFirst capacity entry old)
  | cleared : Change capacity old none []

namespace Change

variable {new? : Option (κ × α)}

/-- Every entry was there before, or has come in. This forgets in which order the entries are and
which of them have gone. -/
theorem mem_or (h : Change capacity old new? new) {e : κ × α} (he : e ∈ new) :
    e ∈ old ∨ new? = some e := by
  cases h with
  | same => exact .inl he
  | promoted hpromotes => exact .inl (hpromotes.perm.mem_iff.1 he)
  | inserted _ =>
    rcases List.mem_cons.1 ((insertFirst_sublist ..).subset he) with rfl | hold
    · exact .inr rfl
    · exact .inl hold
  | cleared => exact absurd he List.not_mem_nil

/-- What comes in has a key that was not there. -/
theorem key_not_mem (h : Change capacity old (some entry) new) : entry.1 ∉ old.map Prod.fst := by
  cases h with
  | inserted hnot => exact hnot

/-- No key comes to be there twice. A store that pushed a value without having looked for its key
would not keep this. -/
theorem nodup (h : Change capacity old new? new) (hnodup : (old.map Prod.fst).Nodup) :
    (new.map Prod.fst).Nodup := by
  cases h with
  | same => exact hnodup
  | promoted hpromotes => exact (hpromotes.perm.map Prod.fst).nodup_iff.2 hnodup
  | @inserted entry hnot =>
    -- The key is new, and dropping an entry makes no key come twice.
    have hcons : ((entry :: old).map Prod.fst).Nodup := List.nodup_cons.2 ⟨hnot, hnodup⟩
    exact hcons.sublist ((insertFirst_sublist ..).map _)
  | cleared => exact List.nodup_nil

/-- There never come to be more entries than there is room for. -/
theorem length_le (h : Change capacity old new? new) (hpos : 0 < capacity)
    (hlength : old.length ≤ capacity) : new.length ≤ capacity := by
  cases h with
  | same => exact hlength
  | promoted hpromotes => rwa [hpromotes.perm.length_eq]
  | inserted _ =>
    rw [insertFirst_eq_take hpos hlength]
    exact List.length_take_le ..
  | cleared => exact Nat.zero_le _

/-- **A value that stays under its key stays the same.** -/
theorem lookup_eq [BEq κ] [LawfulBEq κ] (h : Change capacity old new? new)
    (hnodup : (old.map Prod.fst).Nodup) {key : κ} {value : α}
    (hbefore : old.lookup key = some value) (hafter : key ∈ new.map Prod.fst) :
    new.lookup key = some value := by
  have hmem : (key, value) ∈ old := mem_of_lookup hbefore
  -- Whatever stands under the key now is an old entry, since what comes in has another key.
  obtain ⟨⟨key, other⟩, hother, rfl⟩ := List.mem_map.1 hafter
  have hold : (key, other) ∈ old := by
    rcases h.mem_or hother with hold | rfl
    · exact hold
    · exact absurd (List.mem_map_of_mem hmem) h.key_not_mem
  have hlookup : old.lookup key = some other := lookup_eq_some_of_mem hnodup hold
  rw [← hbefore, hlookup]
  exact lookup_eq_some_of_mem (h.nodup hnodup) hother

end Change

end RecencyStore

end TypedSyntax
