import IndexedStore.Proofs.Index.Contents
import IndexedStore.Proofs.Slots.Alike
import IndexedStore.Proofs.Slots.Counts

/-!
# Indexes that keep the same slots

What an index answers and counts is determined by the slots that it keeps of each key, up to the refusals of
improper bounds. So an index that was only ever given keys it had nothing of, as one that is filled, repeats
what every index of its definition with the same slots answers (`lookup_repeats`, `lookupRange_repeats`), and
the counts of both are those of the slots (`counts_spec`, `entryCount_spec`).
-/

namespace IndexedStore

/-- A look-up was refused for the sake of improper bounds. -/
def Error.Improper (e : Error) : Prop := ∃ fault : BoundsFault, e = .improperBounds fault ∧ fault.Improper

namespace Index

variable {ix ix' : Index}

/-! ## Look-ups -/

section Alike

variable (h : ix.WF) (h' : ix'.WF) (hs : ix.state ≠ .removed) (hs' : ix'.state ≠ .removed)
  (hc : ix'.compiled = ix.compiled) (hslots : ∀ key, ix'.slotsAt key = ix.slotsAt key)

include h h' hc hslots

/-- The stores have the same occurrences and are of one kind. -/
theorem stores_alike : ix'.store.kind = ix.store.kind ∧
    ∀ slot key, ix'.store.occurrences slot key = ix.store.occurrences slot key := by
  refine ⟨?_, fun slot key => ?_⟩
  · rw [h.kind, h'.kind, kind, kind, hc]
  · rw [h.occurrences, h'.occurrences, hslots]

include hs hs'

theorem lookup_repeats (hg : ix'.store.Grown) (op : Comparison) (probe : Option Key) :
    Repeats Error.Improper (ix.lookup op probe) (ix'.lookup op probe) := by
  obtain ⟨hkind, hocc⟩ := stores_alike h h' hc hslots
  have hkind' : ix'.kind = ix.kind := by rw [kind, kind, hc]
  simp only [lookup, hs, hs', hkind', name, hc, if_false]
  cases hop : ix.kind.supports op with
  | false => exact .refused _
  | true =>
    have hop : ix.store.kind.supports op = true := by rwa [h.kind]
    have hstore := SlotStore.lookup_repeats h.store h'.store hkind hocc hg hop probe
    exact hstore.mapError fun fault hf => ⟨fault, rfl, hf⟩

theorem lookupRange_repeats (hg : ix'.store.Grown) (lower upper : KeyBound) :
    Repeats Error.Improper (ix.lookupRange lower upper) (ix'.lookupRange lower upper) := by
  obtain ⟨hkind, hocc⟩ := stores_alike h h' hc hslots
  have hkind' : ix'.kind = ix.kind := by rw [kind, kind, hc]
  simp only [lookupRange, hs, hs', hkind', name, hc, if_false]
  rcases SlotStore.lookupRange_repeats h.store h'.store hkind hocc hg lower upper with
    ⟨ha, hb⟩ | ⟨a, b, ha, hb, hab⟩
  · rw [ha, hb]
    exact .refused _
  · rw [ha, hb]
    exact hab.mapError fun fault hf => ⟨fault, rfl, hf⟩

end Alike

/-- A range index answers between the bounds of keys of values. -/
theorem lookupRange_isOk (h : ix.WF) (hs : ix.state ≠ .removed) (hk : ix.kind = .range) {lower upper : KeyBound}
    (hl : ∀ k ∈ lower.key?, k.Grounded) (hu : ∀ k ∈ upper.key?, k.Grounded) :
    ∃ found, ix.lookupRange lower upper = .ok found := by
  have hkind := h.kind.trans hk
  cases hstore : ix.store with
  | ordered slots =>
    obtain ⟨found, hfound⟩ := slots.lookupRange_isOk hl hu
    exact ⟨found, by simp [lookupRange, hs, hstore, SlotStore.lookupRange?, hfound, Except.mapError]⟩
  | striped | unique =>
    rw [hstore] at hkind
    cases hkind

/-! ## Counts -/

/-- A list of keys is all that an index keeps slots of. -/
structure Within (ix : Index) (keys : List Key) : Prop where
  nodup : keys.Nodup
  covers : ∀ key, ix.slotsAt key ≠ [] → key ∈ keys

theorem count_pairs {keys : List Key} (hn : keys.Nodup) (f : Key → List Slot) (slot : Slot) (key : Key) :
    (keys.flatMap fun k => (f k).map (·, k)).count (slot, key) = if key ∈ keys then (f key).count slot else 0 := by
  induction keys with
  | nil => rfl
  | cons k rest ih =>
    obtain ⟨hk, hrest⟩ := List.nodup_cons.1 hn
    rw [List.flatMap_cons, List.count_append, ih hrest]
    by_cases he : key = k
    · subst he
      have hinj : Function.Injective fun slot : Slot => (slot, key) := fun _ _ h => (Prod.mk.inj h).1
      rw [List.count_map_of_injective _ _ hinj]
      simp [hk]
    · have hnot : (slot, key) ∉ (f k).map (·, k) := by
        intro hm
        obtain ⟨_, -, hpair⟩ := List.mem_map.1 hm
        exact he (Prod.mk.inj hpair).2.symm
      rw [List.count_eq_zero.2 hnot]
      simp [he]

/-- **An index counts the slots that it keeps, and the different ones among them.** -/
theorem counts_spec (h : ix.WF) {keys : List Key} (hw : ix.Within keys) :
    ix.counts = ((keys.flatMap ix.slotsAt).dedup.length, (keys.flatMap ix.slotsAt).length) := by
  have hpairs : ∀ slot key, (keys.flatMap fun k => (ix.slotsAt k).map (·, k)).count (slot, key) =
      ix.store.occurrences slot key := by
    intro slot key
    rw [count_pairs hw.nodup, h.occurrences]
    split
    · rfl
    · rename_i hkey
      have hnil : ix.slotsAt key = [] := not_not.1 fun hne => hkey (hw.covers key hne)
      rw [hnil, List.count_nil]
  have hslots : (keys.flatMap fun k => (ix.slotsAt k).map (·, k)).map (·.1) = keys.flatMap ix.slotsAt := by
    rw [List.map_flatMap]
    refine List.flatMap_congr fun k _ => ?_
    rw [List.map_map]
    exact List.map_id _
  rw [counts, SlotStore.counts_eq h.store hpairs, hslots, ← hslots, List.length_map]

/-- **The entries of an index are the keys that it keeps slots of.** -/
theorem entryCount_spec (h : ix.WF) {keys : List Key} (hw : ix.Within keys) :
    ix.entryCount = (keys.filter fun key => ix.slotsAt key ≠ []).length := by
  have hperm : (Table.keys ix.mapped).Perm (keys.filter fun key => ix.slotsAt key ≠ []) := by
    refine (List.perm_ext_iff_of_nodup h.unique (hw.nodup.filter _)).2 fun key => ?_
    have hmem : key ∈ Table.keys ix.mapped ↔ ix.slotsAt key ≠ [] := by
      rw [Table.mem_keys_iff, slotsAt]
      cases hf : Table.find? key ix.mapped with
      | none => simp
      | some slots => simpa using h.nonempty _ (Table.mem_of_find? hf)
    simpa [hmem] using hw.covers key
  rw [entryCount, ← hperm.length_eq, Table.keys, List.length_map]

/-! ## Filling -/

theorem store_maintain (ix : Index) (key : Key) (value : Option Value) :
    (ix.maintain key value).2.store = (ix.settle key value).2.store := by
  have happly : (ix.apply key value).2.store = (ix.settle key value).2.store := rfl
  rw [← happly, maintain]
  generalize ix.apply key value = applied
  obtain ⟨_ | (_ | _), applied⟩ := applied <;> rfl

/-- A store from which a key has nothing to lose only grows. -/
theorem grown_maintain (hg : ix.store.Grown) {key : Key} (hn : ix.slotsAt key = []) (value : Option Value) :
    (ix.maintain key value).2.store.Grown := by
  have remapped : ∀ new, (ix.remap key [] new).2.store.Grown := by
    intro new
    have hupdate := hg.update key new
    unfold remap
    generalize ix.store.update key [] new = updated at hupdate
    obtain ⟨_ | _, _⟩ := updated <;> exact hupdate
  rw [store_maintain, settle]
  rw [slotsAt] at hn
  cases ix.projectEntry value with
  | ok new =>
    simp only [hn]
    split
    · exact hg
    · exact remapped new
  | error fault =>
    cases hf : Table.find? key ix.mapped with
    | none => exact hg
    | some old =>
      obtain rfl : old = [] := by simpa [hf] using hn
      exact remapped []

end Index

end IndexedStore
