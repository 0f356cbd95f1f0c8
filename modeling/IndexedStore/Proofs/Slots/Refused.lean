import IndexedStore.Proofs.Slots.Store

/-!
# Refused updates leave nothing behind

An update that a primary-key store refuses takes back what it had added. `apart` is what a store has of the
other keys; adding and removing mappings of one key leaves it alone, entry by entry and in its order. What was
added stands in front of nothing that was there before, so that a store which is well formed, has the old
occurrences again and has seen only additions and removals is the old one, place by place
(`UniqueSlots.update_refused`). The update is then refused again, for the same reason
(`SlotStore.update_refused_again`).
-/

namespace IndexedStore

namespace Table

variable {κ α : Type} [DecidableEq κ]

/-- Setting a value is not seen where neither it nor the one before it is looked at. -/
theorem filter_set {p : κ × α → Bool} {key : κ} {value : α} {t : Table κ α} (hnew : p (key, value) = false)
    (hold : ∀ a, find? key t = some a → p (key, a) = false) : (set key value t).filter p = t.filter p := by
  induction t with
  | nil => simp [Table.set, hnew]
  | cons e t ih =>
    obtain ⟨k, a⟩ := e
    by_cases hk : k = key
    · subst hk
      have ha : p (k, a) = false := hold a (by simp [find?])
      simp [Table.set, hnew, ha]
    · have hrest := ih fun b hb => hold b (by simpa [find?, hk] using hb)
      simp [Table.set, hk, List.filter_cons, hrest]

theorem filter_erase {p : κ × α → Bool} {key : κ} {t : Table κ α}
    (hold : ∀ a, find? key t = some a → p (key, a) = false) : (erase key t).filter p = t.filter p := by
  induction t with
  | nil => rfl
  | cons e t ih =>
    obtain ⟨k, a⟩ := e
    by_cases hk : k = key
    · subst hk
      have ha : p (k, a) = false := hold a (by simp [find?])
      simp [Table.erase, ha]
    · have hrest := ih fun b hb => hold b (by simpa [find?, hk] using hb)
      simp [Table.erase, hk, List.filter_cons, hrest]

end Table

namespace UniqueSlots

variable {s s' : UniqueSlots} {key : Key}

/-- What a store has of other keys than the given one. -/
def apart (s : UniqueSlots) (key : Key) : String × Table Key Owner × Table Key Nat :=
  (s.name, s.owners.filter fun e => e.2.key != key, s.undefined.counts.filter fun e => e.1 != key)

theorem apart_add {slot : Slot} (h : s.add key slot = .ok s') : s'.apart key = s.apart key := by
  cases slot with
  | undefined =>
    obtain rfl := Except.ok.inj h
    simp only [apart, Postings.add]
    rw [Table.filter_set (by simp) (by simp)]
  | defined v =>
    simp only [add] at h
    cases hf : Table.find? v s.owners with
    | none =>
      simp only [hf] at h
      obtain rfl := Except.ok.inj h
      simp only [apart]
      rw [Table.filter_set (by simp) (by simp [hf])]
    | some owner =>
      simp only [hf] at h
      split at h
      · rename_i hk
        obtain rfl := Except.ok.inj h
        simp only [apart]
        rw [Table.filter_set (by simp [hk]) (by simp [hf, hk])]
      · cases h

theorem apart_remove (s : UniqueSlots) (key : Key) (slot : Slot) : (s.remove key slot).apart key = s.apart key := by
  cases slot with
  | undefined =>
    simp only [remove, Postings.remove?]
    cases Table.find? key s.undefined.counts with
    | none => rfl
    | some n =>
      simp only [apart]
      split
      · rw [Table.filter_set (by simp) (by simp)]
      · rw [Table.filter_erase (by simp)]
  | defined v =>
    simp only [remove]
    cases hf : Table.find? v s.owners with
    | none => rfl
    | some owner =>
      simp only
      split
      · rename_i hk
        simp only [apart]
        split
        · rw [Table.filter_erase (by simp [hf, hk])]
        · rw [Table.filter_set (by simp [hk]) (by simp [hf, hk])]
      · rfl

theorem apart_foldl_remove (slots : List Slot) (s : UniqueSlots) :
    (slots.foldl (·.remove key ·) s).apart key = s.apart key := by
  induction slots generalizing s with
  | nil => rfl
  | cons slot rest ih => exact (ih _).trans (apart_remove s key slot)

theorem apart_addAll (rest done : List Slot) (s : UniqueSlots) :
    (s.addAll key done rest).2.apart key = s.apart key := by
  induction rest generalizing s done with
  | nil => rfl
  | cons slot rest ih =>
    unfold addAll
    cases ha : s.add key slot with
    | ok added => exact (ih _ added).trans (apart_add ha)
    | error violation => exact apart_foldl_remove done s

/-! ## Places

The same keys do not make the same table: what was taken out and put in again has lost its place. An update
that is taken back has only added behind what was there, and only removed since. -/

/-- The entries of a store are entries of another, in the same order, perhaps with other counts. -/
structure Among (s t : UniqueSlots) : Prop where
  owners : (Table.keys s.owners).Sublist (Table.keys t.owners)
  undefined : s.undefined.keys.Sublist t.undefined.keys

theorem Among.refl (s : UniqueSlots) : s.Among s := ⟨.refl _, .refl _⟩

theorem Among.trans {t : UniqueSlots} (h : s.Among t) (h' : t.Among s') : s.Among s' :=
  ⟨h.owners.trans h'.owners, h.undefined.trans h'.undefined⟩

theorem among_add {slot : Slot} (h : s.add key slot = .ok s') : s.Among s' := by
  cases slot with
  | undefined =>
    obtain rfl := Except.ok.inj h
    exact ⟨.refl _, Table.keys_sublist_set _ _ _⟩
  | defined v =>
    simp only [add] at h
    split at h
    · split at h
      · obtain rfl := Except.ok.inj h
        exact ⟨Table.keys_sublist_set _ _ _, .refl _⟩
      · cases h
    · obtain rfl := Except.ok.inj h
      exact ⟨Table.keys_sublist_set _ _ _, .refl _⟩

theorem among_remove (s : UniqueSlots) (key : Key) (slot : Slot) : (s.remove key slot).Among s := by
  cases slot with
  | undefined =>
    simp only [remove, Postings.remove?]
    cases hf : Table.find? key s.undefined.counts with
    | none => exact .refl s
    | some n =>
      refine ⟨.refl _, ?_⟩
      simp only [Postings.keys]
      split
      · exact (Table.keys_set_of_find? hf _).symm ▸ .refl _
      · exact Table.keys_erase_sublist _ _
  | defined v =>
    simp only [remove]
    cases hf : Table.find? v s.owners with
    | none => exact .refl s
    | some owner =>
      simp only
      split
      · refine ⟨?_, .refl _⟩
        simp only
        split
        · exact Table.keys_erase_sublist _ _
        · exact (Table.keys_set_of_find? hf _).symm ▸ .refl _
      · exact .refl s

theorem among_foldl_remove (slots : List Slot) (s : UniqueSlots) : (slots.foldl (·.remove key ·) s).Among s := by
  induction slots generalizing s with
  | nil => exact .refl s
  | cons slot rest ih => exact (ih _).trans (among_remove s key slot)

/-- Where additions end in a violation, what is left stands where it stood at their widest, as what was there
before them does. -/
theorem among_addAll {rest done : List Slot} {violation : Violation} (h : s.WF)
    (hu : s.addAll key done rest = (some violation, s')) : ∃ widest : UniqueSlots, widest.WF ∧ s.Among widest ∧
      s'.Among widest := by
  induction rest generalizing s done with
  | nil => cases hu
  | cons slot rest ih =>
    unfold addAll at hu
    cases ha : s.add key slot with
    | error _ =>
      simp only [ha] at hu
      obtain ⟨-, rfl⟩ := Prod.mk.inj hu
      exact ⟨s, h, .refl s, among_foldl_remove done s⟩
    | ok added =>
      simp only [ha] at hu
      have hadd := add_spec h key slot
      rw [ha] at hadd
      obtain ⟨widest, hwf, hbefore, hafter⟩ := ih hadd.1 hu
      exact ⟨widest, hwf, (among_add ha).trans hbefore, hafter⟩

/-- The occurrences tell the owner of a slot. -/
theorem find?_owners_eq_some_iff (h : s.WF) {v : Key} {owner : Owner} : Table.find? v s.owners = some owner ↔
    0 < owner.count ∧ s.occurrences (.defined v) owner.key = owner.count := by
  constructor
  · intro hf
    exact ⟨h.positive _ (Table.mem_of_find? hf), by rw [occurrences_defined hf, if_pos rfl]⟩
  · rintro ⟨hpos, hocc⟩
    obtain ⟨owner', hm, hkey⟩ := (occurrences_defined_pos_iff h).1 (by rw [hocc]; exact hpos)
    have hf := (Table.find?_eq_some_iff h.unique).2 hm
    rw [occurrences_defined hf, if_pos hkey] at hocc
    cases owner
    cases owner'
    simp_all

/-- **Stores with the same occurrences, whose entries stand in the same order, are one.** -/
theorem eq_of_occurrences {widest : UniqueSlots} (h : s.WF) (h' : s'.WF) (hw : widest.WF)
    (hbefore : s.Among widest) (hafter : s'.Among widest) (hname : s'.name = s.name)
    (hocc : ∀ slot k, s'.occurrences slot k = s.occurrences slot k) : s' = s := by
  have howners : s'.owners = s.owners := by
    refine Table.eq_of_keys_sublist hw.unique hafter.owners hbefore.owners fun v => Option.ext fun owner => ?_
    rw [find?_owners_eq_some_iff h, find?_owners_eq_some_iff h', hocc]
  have hcounts : s'.undefined.counts = s.undefined.counts := by
    refine Table.eq_of_keys_sublist hw.undefined.unique hafter.undefined hbefore.undefined fun k =>
      Option.ext fun n => ?_
    have hk : s'.undefined.count k = s.undefined.count k := hocc .undefined k
    rw [Postings.find?_eq_some_iff h.undefined, Postings.find?_eq_some_iff h'.undefined, hk]
  have hundefined : s'.undefined = s.undefined := by
    have ht := h.undefined.total
    have ht' := h'.undefined.total
    cases hu : s.undefined
    cases hu' : s'.undefined
    simp_all
  have htotal : s'.total = s.total := by rw [h'.total, h.total, howners, hundefined]
  cases s
  cases s'
  simp_all

/-- **A refused update takes the old mappings out, and leaves nothing of the new ones.** -/
theorem update_refused (h : s.WF) {old new : List Slot} {violation : Violation}
    (hu : s.update key old new = (some violation, s')) : s' = old.foldl (·.remove key ·) s := by
  obtain ⟨hwf, hocc⟩ := foldl_remove_spec h key old
  have hspec := update_spec h key old new
  rw [hu] at hspec
  obtain ⟨hwf', hocc', -⟩ := hspec
  obtain ⟨widest, hwidest, hbefore, hafter⟩ := among_addAll hwf hu
  refine eq_of_occurrences hwf hwf' hwidest hbefore hafter ?_ fun slot k => by rw [hocc', hocc]
  have hapart : s'.apart key = (old.foldl (·.remove key ·) s).apart key := by
    rw [← apart_addAll new [] (old.foldl (·.remove key ·) s)]
    exact congrArg (fun outcome => outcome.2.apart key) hu.symm
  exact congrArg Prod.fst hapart

theorem update_refused_again (h : s.WF) {old new : List Slot} {violation : Violation}
    (hu : s.update key old new = (some violation, s')) : s'.update key [] new = (some violation, s') := by
  obtain rfl := update_refused h hu
  exact hu

end UniqueSlots

/-- **An update that was refused is refused again, and changes nothing then.** -/
theorem SlotStore.update_refused_again {s s' : SlotStore} (h : s.WF) {key : Key} {old new : List Slot}
    {violation : Violation} (hu : s.update key old new = (some violation, s')) :
    s'.update key [] new = (some violation, s') := by
  cases s with
  | ordered | striped => cases hu
  | unique slots =>
    unfold update at hu
    cases ho : slots.update key old new with
    | mk outcome slots' =>
      simp only [ho] at hu
      obtain ⟨rfl, rfl⟩ := Prod.mk.inj hu
      simp only [update, UniqueSlots.update_refused_again h ho]

end IndexedStore
