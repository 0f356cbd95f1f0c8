import IndexedStore.Index.Basic
import IndexedStore.Proofs.KeyOrder
import IndexedStore.Proofs.Scope.Coverage
import IndexedStore.Proofs.Slots.Postings

/-!
# Projected slots

The slots of a region value stand in the order of the tuples that the index visits, one slot for each,
and exist only if every tuple has one: the first that has none gives its fault to the whole value.
-/

namespace IndexedStore.Index

theorem slotsOf_eq_ok_iff {l : Locator} {tuples : List (List Value)} {slots : List Slot} :
    slotsOf l tuples = .ok slots ↔ tuples.map (slotOf l) = slots.map .ok := by
  induction tuples generalizing slots with
  | nil => cases slots <;> simp [slotsOf]
  | cons t rest ih =>
    simp only [slotsOf]
    cases ht : slotOf l t with
    | error fault => cases slots <;> simp [ht]
    | ok slot =>
      cases slots with
      | nil => cases slotsOf l rest <;> simp [Except.map]
      | cons slot' slots' =>
        have := @ih slots'
        cases hr : slotsOf l rest with
        | error fault => simp_all [Except.map]
        | ok rest' => simp_all [Except.map]

theorem slotsOf_eq_error {l : Locator} {tuples : List (List Value)} {fault : EvaluationFault}
    (h : slotsOf l tuples = .error fault) : ∃ t ∈ tuples, slotOf l t = .error fault := by
  induction tuples with
  | nil => simp [slotsOf] at h
  | cons t rest ih =>
    simp only [slotsOf] at h
    cases ht : slotOf l t with
    | error fault' =>
      simp only [ht, Except.error.injEq] at h
      exact ⟨t, by simp, h ▸ ht⟩
    | ok slot =>
      cases hr : slotsOf l rest with
      | error fault' =>
        simp only [ht, hr, Except.map, Except.error.injEq] at h
        obtain ⟨u, hu, he⟩ := ih (h ▸ hr)
        exact ⟨u, List.mem_cons_of_mem _ hu, he⟩
      | ok slots => simp [ht, hr, Except.map] at h

/-- Each tuple has a slot among those projected. -/
theorem slot_of_tuple {l : Locator} {tuples : List (List Value)} {slots : List Slot}
    (h : slotsOf l tuples = .ok slots) {t : List Value} (ht : t ∈ tuples) :
    ∃ slot ∈ slots, slotOf l t = .ok slot := by
  have hm : slotOf l t ∈ slots.map Except.ok := by
    rw [← slotsOf_eq_ok_iff.1 h]
    exact List.mem_map.2 ⟨t, ht, rfl⟩
  obtain ⟨slot, hslot, he⟩ := List.mem_map.1 hm
  exact ⟨slot, hslot, he.symm⟩

/-- Each projected slot is that of a tuple. -/
theorem tuple_of_slot {l : Locator} {tuples : List (List Value)} {slots : List Slot}
    (h : slotsOf l tuples = .ok slots) {slot : Slot} (hs : slot ∈ slots) :
    ∃ t ∈ tuples, slotOf l t = .ok slot := by
  have hm : Except.ok slot ∈ tuples.map (slotOf l) := by
    rw [slotsOf_eq_ok_iff.1 h]
    exact List.mem_map.2 ⟨slot, hs, rfl⟩
  obtain ⟨t, ht, he⟩ := List.mem_map.1 hm
  exact ⟨t, ht, he⟩

theorem slotsOfValue_eq_ok_iff {c : CompiledDefinition} {v : Value} {slots : List Slot} :
    slotsOfValue c v = .ok slots ↔
      (c.scope.tuples v).fault = none ∧ slotsOf c.locator (c.scope.tuples v).tuples = .ok slots := by
  unfold slotsOfValue
  cases hs : slotsOf c.locator (c.scope.tuples v).tuples <;> cases hf : (c.scope.tuples v).fault <;> simp [hs, hf]

/-- A defined slot is the key of a value, so it is not below the floor of its class. -/
theorem slotOf_grounded {l : Locator} {t : List Value} {k : Key} (h : slotOf l t = .ok (.defined k)) :
    k.Grounded := by
  unfold slotOf at h
  split at h
  · cases h
  · rename_i v _
    cases hk : Key.ofValue v with
    | error fault => simp [hk, Except.map] at h
    | ok key =>
      cases key with
      | none => simp [hk, Except.map, Slot.ofKey?] at h
      | some k' =>
        simp only [hk, Except.map, Slot.ofKey?, Except.ok.injEq, Slot.defined.injEq] at h
        exact Key.grounded_ofValue (h ▸ hk)

theorem slotsOfValue_grounded {c : CompiledDefinition} {v : Value} {slots : List Slot}
    (h : slotsOfValue c v = .ok slots) {k : Key} (hk : .defined k ∈ slots) : k.Grounded := by
  obtain ⟨t, _, ht⟩ := tuple_of_slot (slotsOfValue_eq_ok_iff.1 h).2 hk
  exact slotOf_grounded ht

end IndexedStore.Index
