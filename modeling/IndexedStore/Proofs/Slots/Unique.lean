import IndexedStore.Slots.Unique
import IndexedStore.Proofs.Slots.Postings

/-!
# The store with one owner for each slot

Read as a multiset, the store holds at most one entry key under a defined slot. An update goes through
exactly when no other key occurs under a defined slot of the new ones; a refused update leaves the
store without the old mappings and with none of the new (`update_spec`).
-/

namespace IndexedStore.UniqueSlots

/-- How often an entry key is mapped to a slot. -/
def occurrences (s : UniqueSlots) (slot : Slot) (key : Key) : Nat :=
  match slot with
  | .defined v =>
    match Table.find? v s.owners with
    | some owner => if owner.key = key then owner.count else 0
    | none => 0
  | .undefined => s.undefined.count key

structure WF (s : UniqueSlots) : Prop where
  unique : Table.Unique s.owners
  positive : ∀ e ∈ s.owners, 0 < e.2.count
  undefined : s.undefined.WF
  total : s.total = sumOf (·.2.count) s.owners + s.undefined.total

theorem wf_empty (name : String) : (empty name).WF :=
  ⟨by simp [empty], by simp [empty], Postings.wf_empty, rfl⟩

@[simp] theorem occurrences_empty (name : String) (slot : Slot) (key : Key) :
    (empty name).occurrences slot key = 0 := by
  cases slot <;> rfl

theorem occurrences_defined {s : UniqueSlots} {v : Key} {owner : Owner}
    (h : Table.find? v s.owners = some owner) (key : Key) :
    s.occurrences (.defined v) key = if owner.key = key then owner.count else 0 := by
  simp [occurrences, h]

/-- Whatever occurs under a defined slot is its owner. -/
theorem occurrences_defined_pos_iff {s : UniqueSlots} (h : s.WF) {v key : Key} :
    0 < s.occurrences (.defined v) key ↔ ∃ owner, (v, owner) ∈ s.owners ∧ owner.key = key := by
  constructor
  · intro hpos
    cases hf : Table.find? v s.owners with
    | none => simp [occurrences, hf] at hpos
    | some owner =>
      refine ⟨owner, Table.mem_of_find? hf, ?_⟩
      by_contra hne
      simp [occurrences_defined hf, hne] at hpos
  · rintro ⟨owner, hm, rfl⟩
    rw [occurrences_defined ((Table.find?_eq_some_iff h.unique).2 hm), if_pos rfl]
    exact h.positive _ hm

/-- No two keys occur under one defined slot. -/
theorem owner_unique {s : UniqueSlots} (h : s.WF) {v k key : Key} (hk : 0 < s.occurrences (.defined v) k)
    (hkey : 0 < s.occurrences (.defined v) key) : k = key := by
  obtain ⟨o, ho, rfl⟩ := (occurrences_defined_pos_iff h).1 hk
  obtain ⟨o', ho', rfl⟩ := (occurrences_defined_pos_iff h).1 hkey
  rw [← Table.find?_eq_some_iff h.unique] at ho ho'
  rw [Option.some.inj (ho.symm.trans ho')]

/-! ## One mapping more or less -/

/-- What adding a mapping does: it is taken in, or another key owns the slot. -/
theorem add_spec {s : UniqueSlots} (h : s.WF) (key : Key) (slot : Slot) :
    match s.add key slot with
    | .ok s' => s'.WF ∧ (∀ v, slot = .defined v → ∀ k, k ≠ key → s.occurrences slot k = 0) ∧
        ∀ sl k, s'.occurrences sl k = s.occurrences sl k + if sl = slot ∧ k = key then 1 else 0
    | .error violation => slot = .defined violation.value ∧ violation.key = key ∧
        violation.owner ≠ key ∧ 0 < s.occurrences slot violation.owner := by
  have ht := h.total
  cases slot with
  | undefined =>
    refine ⟨⟨h.unique, h.positive, h.undefined.add key, ?_⟩, by simp, ?_⟩
    · simp only [Postings.add]; omega
    · intro sl k
      cases sl <;> simp [occurrences]
  | defined v =>
    have hsum := Table.sumOf_set (·.2.count) s.owners v
    unfold add
    cases hf : Table.find? v s.owners with
    | none =>
      simp only [hf] at hsum ⊢
      refine ⟨⟨h.unique.set v _, Table.forall_set h.positive (by simp), h.undefined, ?_⟩, ?_, ?_⟩
      · have := hsum ⟨key, 1⟩; simp only at this ⊢; omega
      · intro w hw k _
        obtain rfl := Slot.defined.inj hw
        simp [occurrences, hf]
      · intro sl k
        cases sl with
        | undefined => simp [occurrences]
        | defined w =>
          by_cases hw : v = w
          · subst hw; simp [occurrences, hf, eq_comm]
          · simp [occurrences, hw, Ne.symm hw]
    | some owner =>
      have hpos : 0 < owner.count := h.positive _ (Table.mem_of_find? hf)
      simp only [hf] at hsum ⊢
      by_cases hk : owner.key = key
      · subst hk
        simp only [if_true]
        refine ⟨⟨h.unique.set v _, Table.forall_set h.positive (by simp), h.undefined, ?_⟩, ?_, ?_⟩
        · have := hsum ⟨owner.key, owner.count + 1⟩; simp only at this ⊢; omega
        · intro w hw k hk
          obtain rfl := Slot.defined.inj hw
          simp [occurrences_defined hf, Ne.symm hk]
        · intro sl k
          cases sl with
          | undefined => simp [occurrences]
          | defined w =>
            by_cases hw : v = w
            · subst hw
              by_cases hkey : owner.key = k
              · subst hkey; simp [occurrences, hf]
              · simp [occurrences, hf, hkey, Ne.symm hkey]
            · simp [occurrences, hw, Ne.symm hw]
      · rw [if_neg hk]
        refine ⟨rfl, rfl, hk, ?_⟩
        rw [occurrences_defined hf, if_pos rfl]
        exact hpos

theorem remove_spec {s : UniqueSlots} (h : s.WF) (key : Key) (slot : Slot) :
    (s.remove key slot).WF ∧ ∀ sl k, (s.remove key slot).occurrences sl k =
      s.occurrences sl k - if sl = slot ∧ k = key then 1 else 0 := by
  have ht := h.total
  -- a key that does not occur under the slot has nothing to lose
  have unchanged : s.occurrences slot key = 0 → s.WF ∧ ∀ sl k, s.occurrences sl k =
      s.occurrences sl k - if sl = slot ∧ k = key then 1 else 0 := by
    intro h0
    refine ⟨h, ?_⟩
    intro sl k
    by_cases hsk : sl = slot ∧ k = key
    · obtain ⟨rfl, rfl⟩ := hsk; simp [h0]
    · simp [hsk]
  unfold remove
  cases slot with
  | undefined =>
    cases hr : s.undefined.remove? key with
    | none => exact unchanged ((Postings.remove?_eq_none_iff h.undefined).1 hr)
    | some left =>
      obtain ⟨hwf, hlt, -, hc⟩ := Postings.remove?_spec h.undefined hr
      refine ⟨⟨h.unique, h.positive, hwf, by simp only; omega⟩, ?_⟩
      intro sl k
      cases sl with
      | defined w => simp [occurrences]
      | undefined => simpa [occurrences] using hc k
  | defined v =>
    cases hf : Table.find? v s.owners with
    | none =>
      simp only [hf]
      exact unchanged (by simp [occurrences, hf])
    | some owner =>
      have hpos : 0 < owner.count := h.positive _ (Table.mem_of_find? hf)
      by_cases hk : owner.key = key
      · subst hk
        have hse := Table.sumOf_erase (·.2.count) s.owners v
        have hss := Table.sumOf_set (·.2.count) s.owners v ⟨owner.key, owner.count - 1⟩
        simp only [hf, if_true] at hse hss ⊢
        by_cases hone : owner.count - 1 = 0
        · simp only [hone, if_true]
          refine ⟨⟨h.unique.erase v, fun e he => h.positive e (Table.mem_of_mem_erase he), h.undefined,
            by simp only; omega⟩, ?_⟩
          intro sl k
          cases sl with
          | undefined => simp [occurrences]
          | defined w =>
            by_cases hw : v = w
            · subst hw
              by_cases hkey : owner.key = k
              · subst hkey; simp [occurrences, Table.find?_erase h.unique, hf]; omega
              · simp [occurrences, Table.find?_erase h.unique, hf, hkey]
            · simp [occurrences, Table.find?_erase h.unique, hw, Ne.symm hw]
        · simp only [hone, if_false]
          refine ⟨⟨h.unique.set v _, Table.forall_set h.positive (by simp only; omega), h.undefined,
            by simp only; omega⟩, ?_⟩
          intro sl k
          cases sl with
          | undefined => simp [occurrences]
          | defined w =>
            by_cases hw : v = w
            · subst hw
              by_cases hkey : owner.key = k
              · subst hkey; simp [occurrences, hf]
              · simp [occurrences, hf, hkey]
            · simp [occurrences, hw, Ne.symm hw]
      · simp only [hf, hk, if_false]
        exact unchanged (by simp [occurrences_defined hf, hk])

/-! ## Updates -/

/-- Removing slots in a row takes each out as often as it is listed, as far as it occurs. -/
theorem foldl_remove_spec {s : UniqueSlots} (h : s.WF) (key : Key) (slots : List Slot) :
    (slots.foldl (·.remove key ·) s).WF ∧ ∀ slot k, (slots.foldl (·.remove key ·) s).occurrences slot k =
      s.occurrences slot k - if k = key then slots.count slot else 0 := by
  have removed : ∀ slot ∈ slots, ∀ t : UniqueSlots, t.WF → (t.remove key slot).WF ∧ ∀ sl k,
      (t.remove key slot).occurrences sl k = t.occurrences sl k - if sl = slot ∧ k = key then 1 else 0 :=
    fun slot _ t ht => remove_spec ht key slot
  exact foldl_removed removed h

/-- What adding slots in a row does, where `done` have been added on top of `base`. -/
theorem addAll_spec (key : Key) (base : Slot → Key → Nat) (rest : List Slot) {s : UniqueSlots} (h : s.WF)
    (done : List Slot)
    (hs : ∀ sl k, s.occurrences sl k = base sl k + if k = key then done.count sl else 0) :
    match s.addAll key done rest with
    | (none, s') => s'.WF ∧
        (∀ v, Slot.defined v ∈ rest → ∀ k, k ≠ key → base (.defined v) k = 0) ∧
        ∀ sl k, s'.occurrences sl k = base sl k + if k = key then (done ++ rest).count sl else 0
    | (some violation, s') => s'.WF ∧ (∀ sl k, s'.occurrences sl k = base sl k) ∧
        .defined violation.value ∈ rest ∧ violation.key = key ∧ violation.owner ≠ key ∧
        0 < base (.defined violation.value) violation.owner := by
  induction rest generalizing s done with
  | nil => exact ⟨h, by simp, by simpa using hs⟩
  | cons slot rest ih =>
    have hadd := add_spec h key slot
    unfold addAll
    cases ha : s.add key slot with
    | error violation =>
      rw [ha] at hadd
      obtain ⟨rfl, hkey, hne, hpos⟩ := hadd
      obtain ⟨hwf, hocc⟩ := foldl_remove_spec h key done
      refine ⟨hwf, ?_, by simp, hkey, hne, ?_⟩
      · intro sl k
        rw [hocc, hs]; omega
      · rw [hs] at hpos
        simpa [hne] using hpos
    | ok added =>
      rw [ha] at hadd
      obtain ⟨hwf, howned, hocc⟩ := hadd
      have hbase : ∀ sl k, added.occurrences sl k =
          base sl k + if k = key then (done ++ [slot]).count sl else 0 := by
        intro sl k
        rw [hocc, hs, List.count_append, List.count_singleton]
        simp only [beq_iff_eq, eq_comm (a := slot)]
        by_cases hk : k = key <;> by_cases hsl : sl = slot <;> (simp [hk, hsl]; try omega)
      have hrest := ih hwf (done ++ [slot]) hbase
      simp only
      split at hrest
      · obtain ⟨hwf', hfree, hocc'⟩ := hrest
        refine ⟨hwf', ?_, by simpa using hocc'⟩
        intro v hv k hk
        rcases List.mem_cons.1 hv with rfl | hv
        · have := howned v rfl k hk
          rw [hs] at this
          simpa [hk] using this
        · exact hfree v hv k hk
      · obtain ⟨hwf', hocc', hv, hrest⟩ := hrest
        exact ⟨hwf', hocc', List.mem_cons_of_mem _ hv, hrest⟩

/-- **An update exchanges the mappings of its key, or takes the old ones out where another key owns one
of the new slots.** -/
theorem update_spec {s : UniqueSlots} (h : s.WF) (key : Key) (old new : List Slot) :
    match s.update key old new with
    | (none, s') => s'.WF ∧
        (∀ v, Slot.defined v ∈ new → ∀ k, k ≠ key → s.occurrences (.defined v) k = 0) ∧
        ∀ slot k, s'.occurrences slot k = s.occurrences slot k - (if k = key then old.count slot else 0) +
          if k = key then new.count slot else 0
    | (some violation, s') => s'.WF ∧
        (∀ slot k, s'.occurrences slot k =
          s.occurrences slot k - if k = key then old.count slot else 0) ∧
        .defined violation.value ∈ new ∧ violation.key = key ∧ violation.owner ≠ key ∧
        0 < s.occurrences (.defined violation.value) violation.owner := by
  obtain ⟨hwf, hocc⟩ := foldl_remove_spec h key old
  have hall := addAll_spec key (fun sl k => s.occurrences sl k - if k = key then old.count sl else 0) new
    hwf [] (by simpa using hocc)
  unfold update
  generalize (old.foldl (·.remove key ·) s).addAll key [] new = outcome at hall ⊢
  obtain ⟨_ | violation, s'⟩ := outcome
  · obtain ⟨hwf', hfree, hocc'⟩ := hall
    refine ⟨hwf', ?_, by simpa using hocc'⟩
    intro v hv k hk
    simpa [hk] using hfree v hv k hk
  · obtain ⟨hwf', hocc', hv, hkey, hne, hpos⟩ := hall
    exact ⟨hwf', hocc', hv, hkey, hne, by simpa [hne] using hpos⟩

/-! ## Look-ups -/

theorem contains_iff {s : UniqueSlots} (h : s.WF) {slot : Slot} {key : Key} :
    s.contains slot key = true ↔ 0 < s.occurrences slot key := by
  cases slot with
  | defined v =>
    rw [occurrences_defined_pos_iff h]
    simp only [contains, Option.any_eq_true, beq_iff_eq, Table.find?_eq_some_iff h.unique]
  | undefined => exact Postings.contains_iff h.undefined

/-- **A look-up that is no comparison of order finds each key with a slot that satisfies it once.** -/
theorem lookup_spec {s : UniqueSlots} (h : s.WF) {op : Comparison} (ho : op.isInequality = false)
    (probe : Option Key) :
    (s.lookup op probe).keys.Nodup ∧ ∀ key, key ∈ (s.lookup op probe).keys ↔
      ∃ slot, 0 < s.occurrences slot key ∧ op.holds slot.key? probe = true := by
  cases op <;> first | exact absurd ho (by decide) | skip
  case eq =>
    simp only [lookup]
    cases hb : probe.bind (Table.find? · s.owners) with
    | none =>
      refine ⟨Lookup.collect_nodup _ _, ?_⟩
      intro key
      simp only [Lookup.mem_collect, List.not_mem_nil, false_and, exists_false, false_iff,
        Comparison.holds_eq]
      rintro ⟨slot, hpos, rfl, hne⟩
      cases slot with
      | undefined => exact hne rfl
      | defined v => simp_all [occurrences]
    | some owner =>
      refine ⟨Lookup.collect_nodup _ _, ?_⟩
      intro key
      obtain ⟨p, rfl, hf⟩ := Option.bind_eq_some_iff.1 hb
      have hm : (p, owner) ∈ s.owners := Table.mem_of_find? hf
      simp only [Lookup.mem_collect, List.mem_singleton, exists_eq_left, Comparison.holds_eq]
      constructor
      · rintro rfl
        exact ⟨.defined p, (occurrences_defined_pos_iff h).2 ⟨owner, hm, rfl⟩, rfl, by simp⟩
      · rintro ⟨slot, hpos, hslot, -⟩
        cases slot with
        | undefined => cases hslot
        | defined v =>
          obtain rfl := Option.some.inj hslot
          exact owner_unique h hpos ((occurrences_defined_pos_iff h).2 ⟨owner, hm, rfl⟩)
  case ne =>
    refine ⟨Lookup.collect_nodup _ _, ?_⟩
    intro key
    simp only [lookup, Lookup.mem_collect, List.mem_singleton, exists_eq_left, List.mem_map,
      List.mem_filter]
    constructor
    · rintro ⟨⟨v, owner⟩, ⟨hm, hholds⟩, rfl⟩
      exact ⟨.defined v, (occurrences_defined_pos_iff h).2 ⟨owner, hm, rfl⟩, hholds⟩
    · rintro ⟨slot, hpos, hholds⟩
      cases slot with
      | undefined => simp [Comparison.holds] at hholds
      | defined v =>
        obtain ⟨owner, hm, rfl⟩ := (occurrences_defined_pos_iff h).1 hpos
        exact ⟨(v, owner), ⟨hm, hholds⟩, rfl⟩
  case isUndefined =>
    refine ⟨Lookup.collect_nodup _ _, ?_⟩
    intro key
    simp only [lookup, Lookup.mem_collect, List.mem_singleton, exists_eq_left,
      Comparison.holds_isUndefined]
    constructor
    · intro hk
      exact ⟨.undefined, (Postings.count_pos_iff h.undefined).2 hk, rfl⟩
    · rintro ⟨slot, hpos, hslot⟩
      cases slot with
      | defined v => cases hslot
      | undefined => exact (Postings.count_pos_iff h.undefined).1 hpos

end IndexedStore.UniqueSlots
