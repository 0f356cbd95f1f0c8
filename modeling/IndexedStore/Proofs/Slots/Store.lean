import IndexedStore.Slots.Store
import IndexedStore.Proofs.Slots.Ordered
import IndexedStore.Proofs.Slots.Striped
import IndexedStore.Proofs.Slots.Unique

/-!
# Slot stores of any kind

What the three stores have in common. As multisets of pairs of a slot and an entry key they change alike
under an update (`update_spec`), save that a primary-key store may refuse the new slots; and a look-up
with a comparison that the kind supports finds exactly the keys with a slot of which the comparison
holds (`lookup_spec`).
-/

namespace IndexedStore.SlotStore

/-- How often an entry key is mapped to a slot. -/
def occurrences : SlotStore → Slot → Key → Nat
  | .ordered slots => slots.occurrences
  | .striped slots => slots.occurrences
  | .unique slots => slots.occurrences

def WF : SlotStore → Prop
  | .ordered slots => slots.WF
  | .striped slots => slots.WF
  | .unique slots => slots.WF

theorem wf_empty (kind : IndexKind) (name : String) (hasher : Hasher) (stripes : Nat) :
    (empty kind name hasher stripes).WF := by
  cases kind with
  | range => exact OrderedSlots.wf_empty
  | hash => exact StripedSlots.wf_empty hasher stripes
  | primaryKey => exact UniqueSlots.wf_empty name

@[simp] theorem occurrences_empty (kind : IndexKind) (name : String) (hasher : Hasher) (stripes : Nat)
    (slot : Slot) (key : Key) : (empty kind name hasher stripes).occurrences slot key = 0 := by
  cases kind <;> simp [empty, occurrences]

@[simp] theorem kind_empty (kind : IndexKind) (name : String) (hasher : Hasher) (stripes : Nat) :
    (empty kind name hasher stripes).kind = kind := by
  cases kind <;> rfl

@[simp] theorem kind_update (s : SlotStore) (key : Key) (old new : List Slot) :
    (s.update key old new).2.kind = s.kind := by
  cases s <;> rfl

/-- Only a primary-key store refuses an update. -/
theorem update_accepted {s : SlotStore} (h : s.kind ≠ .primaryKey) (key : Key) (old new : List Slot) :
    (s.update key old new).1 = none := by
  cases s with
  | unique => exact absurd rfl h
  | ordered | striped => rfl

/-- An update is refused by a primary-key store where another key has one of the new slots. -/
theorem update_refused_iff {s : SlotStore} (h : s.WF) (key : Key) (old new : List Slot) :
    (s.update key old new).1 ≠ none ↔ s.kind = .primaryKey ∧
      ∃ v k, .defined v ∈ new ∧ k ≠ key ∧ 0 < s.occurrences (.defined v) k := by
  by_cases hk : s.kind = .primaryKey
  · obtain ⟨slots, rfl⟩ : ∃ slots, s = .unique slots := by
      cases s with
      | unique slots => exact ⟨slots, rfl⟩
      | ordered | striped => cases hk
    have hu := UniqueSlots.update_spec h key old new
    simp only [update, occurrences, hk, true_and]
    generalize slots.update key old new = outcome at hu ⊢
    obtain ⟨_ | violation, slots'⟩ := outcome
    · obtain ⟨-, hfree, -⟩ := hu
      simp only [ne_eq, not_true, false_iff]
      rintro ⟨v, k, hv, hne, hpos⟩
      exact absurd (hfree v hv k hne) (by omega)
    · obtain ⟨-, -, hv, -, hne, hpos⟩ := hu
      exact ⟨fun _ => ⟨_, _, hv, hne, hpos⟩, fun _ => Option.some_ne_none _⟩
  · simp [hk, update_accepted hk]

/-- **An update exchanges the mappings of its key. One that is refused, because another key has one of the
new slots, leaves the key without the old mappings.** -/
theorem update_spec {s : SlotStore} (h : s.WF) (key : Key) (old new : List Slot) :
    match s.update key old new with
    | (none, s') => s'.WF ∧ ∀ slot k, s'.occurrences slot k =
        s.occurrences slot k - (if k = key then old.count slot else 0) +
          if k = key then new.count slot else 0
    | (some violation, s') => s'.WF ∧
        (∀ slot k, s'.occurrences slot k =
          s.occurrences slot k - if k = key then old.count slot else 0) ∧
        .defined violation.value ∈ new ∧ violation.key = key ∧ violation.owner ≠ key ∧
        0 < s.occurrences (.defined violation.value) violation.owner := by
  cases s with
  | ordered slots => exact OrderedSlots.update_spec h key old new
  | striped slots => exact StripedSlots.update_spec h key old new
  | unique slots =>
    have hu := UniqueSlots.update_spec h key old new
    simp only [update, occurrences]
    generalize slots.update key old new = outcome at hu ⊢
    obtain ⟨_ | violation, slots'⟩ := outcome
    · exact ⟨hu.1, hu.2.2⟩
    · exact hu

theorem contains_iff {s : SlotStore} (h : s.WF) {slot : Slot} {key : Key} :
    s.contains slot key = true ↔ 0 < s.occurrences slot key := by
  cases s with
  | ordered slots => exact OrderedSlots.contains_iff h
  | striped slots => exact StripedSlots.contains_iff h
  | unique slots => exact UniqueSlots.contains_iff h

/-- **A look-up with a comparison that the kind supports finds each key with a slot that satisfies it
once.** The slots and the probe are keys of values, which are not below the floor of their class. -/
theorem lookup_spec {s : SlotStore} (h : s.WF) {op : Comparison} (ho : s.kind.supports op = true)
    {probe : Option Key} (hp : ∀ p ∈ probe, p.Grounded)
    (grounded : ∀ v key, 0 < s.occurrences (.defined v) key → v.Grounded) :
    ∃ found, s.lookup op probe = .ok found ∧ found.keys.Nodup ∧ ∀ key, key ∈ found.keys ↔
      ∃ slot, 0 < s.occurrences slot key ∧ op.holds slot.key? probe = true := by
  cases s with
  | ordered slots => exact OrderedSlots.lookup_spec h op hp grounded
  | striped slots =>
    exact ⟨_, rfl, StripedSlots.lookup_spec h (by simpa [kind, IndexKind.supports] using ho) probe⟩
  | unique slots =>
    exact ⟨_, rfl, UniqueSlots.lookup_spec h (by simpa [kind, IndexKind.supports] using ho) probe⟩

end IndexedStore.SlotStore
