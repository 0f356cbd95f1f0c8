import IndexedStore.Proofs.Slots.Alike

/-!
# Look-ups in the order of the indexed values

The ordered store gives the entry keys slot by slot, in the order of the slots, and each key where it first
occurs. So a key comes before another only if it stands under a slot that is not after any slot of the other
(`collect_ascends`); of the slots that a look-up admits, those are the least (`lookup_ascends`). Between two
bounds the store finds the keys with a slot that is `Between` them, whatever the shape of the bounds
(`lookupRange_spec`).
-/

namespace IndexedStore

/-- Leaving out repetitions commutes with leaving out keys. -/
theorem eraseDups_filter (p : Key → Bool) (keys : List Key) :
    (keys.filter p).eraseDups = keys.eraseDups.filter p := by
  induction hn : keys.length using Nat.strongRecOn generalizing keys with
  | ind n ih =>
    cases keys with
    | nil => rfl
    | cons key rest =>
      have hlt : (rest.filter fun k => !k == key).length < n := by
        rw [← hn]
        exact Nat.lt_succ_of_le (List.length_filter_le _ _)
      have hrest := ih _ hlt _ rfl
      rw [List.filter_filter] at hrest
      rw [List.eraseDups_cons]
      by_cases hp : p key = true
      · rw [List.filter_cons_of_pos hp, List.filter_cons_of_pos hp, List.eraseDups_cons, List.filter_filter,
          ← hrest]
        simp only [Bool.and_comm]
      · rw [List.filter_cons_of_neg hp, List.filter_cons_of_neg hp, ← hrest]
        congr 1
        apply List.filter_congr
        intro k _
        by_cases hk : k = key
        · simp [hk, hp]
        · simp [hk]

namespace KeyBound

/-- A lower bound is below a key. -/
def Below : KeyBound → Key → Prop
  | .unbounded, _ => True
  | .included b, k => b ≤ k
  | .excluded b, k => b < k

/-- An upper bound is above a key. -/
def Above : KeyBound → Key → Prop
  | .unbounded, _ => True
  | .included b, k => k ≤ b
  | .excluded b, k => k < b

instance : ∀ (b : KeyBound) (k : Key), Decidable (b.Below k)
  | .unbounded, _ => .isTrue trivial
  | .included b, k => inferInstanceAs (Decidable (b ≤ k))
  | .excluded b, k => inferInstanceAs (Decidable (b < k))

instance : ∀ (b : KeyBound) (k : Key), Decidable (b.Above k)
  | .unbounded, _ => .isTrue trivial
  | .included b, k => inferInstanceAs (Decidable (k ≤ b))
  | .excluded b, k => inferInstanceAs (Decidable (k < b))

@[simp] theorem admitsAbove_iff (b : KeyBound) (k : Key) : b.admitsAbove k = true ↔ b.Below k := by
  cases b <;> simp [admitsAbove, Below]

@[simp] theorem admitsBelow_iff (b : KeyBound) (k : Key) : b.admitsBelow k = true ↔ b.Above k := by
  cases b <;> simp [admitsBelow, Above]

/-- What two bounds ask of a value: to lie between them, and to be of the class of each of their keys. -/
structure Between (lower upper : KeyBound) (v : Key) : Prop where
  above : lower.Below v
  below : upper.Above v
  ofLower : ∀ k ∈ lower.key?, v.keyClass = k.keyClass
  ofUpper : ∀ k ∈ upper.key?, v.keyClass = k.keyClass

theorem between_iff {lower upper : KeyBound} {v : Key} : Between lower upper v ↔
    lower.Below v ∧ upper.Above v ∧ (∀ k ∈ lower.key?, v.keyClass = k.keyClass) ∧
      ∀ k ∈ upper.key?, v.keyClass = k.keyClass :=
  ⟨fun h => ⟨h.above, h.below, h.ofLower, h.ofUpper⟩, fun h => ⟨h.1, h.2.1, h.2.2.1, h.2.2.2⟩⟩

instance (lower upper : KeyBound) (v : Key) : Decidable (Between lower upper v) :=
  decidable_of_iff _ between_iff.symm

/-- Nothing lies between bounds that are reversed, exclude their one key, or are of two classes. -/
theorem not_between_of_disjoint {lower upper : KeyBound} (hd : lower.disjoint upper = true) (v : Key) :
    ¬Between lower upper v := by
  rintro ⟨habove, hbelow, hlower, hupper⟩
  cases lower with
  | unbounded => cases hd
  | included lo | excluded lo =>
    cases upper with
    | unbounded => cases hd
    | included hi | excluded hi =>
      have hclass : lo.keyClass = hi.keyClass := (hlower lo rfl).symm.trans (hupper hi rfl)
      simp only [disjoint, key?, isIncluded, Below, Above, hclass, bne_self_eq_false, Bool.false_or,
        Bool.or_eq_true, Key.before_iff_lt, Bool.and_eq_true, beq_iff_eq] at hd habove hbelow
      grind

end KeyBound

namespace OrderedSlots

/-- A key that comes before another stands under a slot that is not after any slot of the other. -/
theorem collect_ascends {l : List (Key × Postings)} (hs : Sorted l) :
    (Lookup.collect true (l.map fun e => e.2.keys)).keys.Pairwise fun k k' =>
      ∀ e' ∈ l, k' ∈ e'.2.keys → ∃ e ∈ l, e.1 ≤ e'.1 ∧ k ∈ e.2.keys := by
  induction l with
  | nil => exact .nil
  | cons e l ih =>
    obtain ⟨hlt, hl⟩ := sorted_cons.1 hs
    -- a key under the first slot may come before any other
    have first : ∀ k ∈ e.2.keys, ∀ e' ∈ e :: l, ∃ d ∈ e :: l, d.1 ≤ e'.1 ∧ k ∈ d.2.keys := by
      intro k hk e' he'
      refine ⟨e, List.mem_cons_self, ?_, hk⟩
      rcases List.mem_cons.1 he' with rfl | he'
      · exact le_refl _
      · exact le_of_lt (hlt _ (List.mem_map.2 ⟨e', he', rfl⟩))
    have hrest : ((l.map fun e => e.2.keys).flatten.removeAll e.2.keys).eraseDups =
        (Lookup.collect true (l.map fun e => e.2.keys)).keys.filter fun k => !e.2.keys.elem k :=
      eraseDups_filter _ _
    show ((e.2.keys ++ (l.map fun e => e.2.keys).flatten).eraseDups).Pairwise _
    rw [List.eraseDups_append, hrest, List.pairwise_append]
    refine ⟨List.pairwise_of_forall_mem_list ?_, ?_, ?_⟩
    · intro k hk k' _ e' he' _
      exact first k (List.mem_eraseDups.1 hk) e' he'
    · refine ((ih hl).filter _).imp_of_mem ?_
      intro k k' _ hk' hle e' he' hin
      have hnot : k' ∉ e.2.keys := by simpa using (List.mem_filter.1 hk').2
      rcases List.mem_cons.1 he' with rfl | he'
      · exact absurd hin hnot
      · obtain ⟨d, hd, hdle, hk⟩ := hle e' he' hin
        exact ⟨d, List.mem_cons_of_mem _ hd, hdle, hk⟩
    · intro k hk k' _ e' he' _
      exact first k (List.mem_eraseDups.1 hk) e' he'

/-- The entry keys under the slots that a condition admits. -/
def admitted (s : OrderedSlots) (admits : Key → Bool) : Lookup :=
  .collect true ((s.values.filter fun e => admits e.1).map fun e => e.2.keys)

section Bounds

variable {lower upper : KeyBound} {c : KeyClass} {v : Key}

/-- Bounds that some slot can satisfy are of the class that a search between them keeps to. -/
theorem ofBounds_iff (hd : lower.disjoint upper = false) (hc : rangeClass lower upper = some c) :
    ((∀ k ∈ lower.key?, v.keyClass = k.keyClass) ∧ ∀ k ∈ upper.key?, v.keyClass = k.keyClass) ↔
      v.keyClass = c := by
  rw [rangeClass] at hc
  rw [KeyBound.disjoint] at hd
  cases hl : lower.key? with
  | none => cases hu : upper.key? <;> simp_all
  | some lo =>
    cases hu : upper.key? with
    | none => simp_all
    | some hi =>
      simp only [hl, hu, Bool.or_eq_false_iff, bne_eq_false_iff_eq] at hd
      simp_all

theorem rangeBounds_snd (lower upper : KeyBound) : (rangeBounds lower upper).2 = upper := by
  unfold rangeBounds
  split <;> rfl

/-- A missing lower bound is below all keys of the class already. -/
theorem below_rangeBounds (hc : rangeClass lower upper = some c) (hg : v.Grounded) (hv : v.keyClass = c) :
    (rangeBounds lower upper).1.Below v ↔ lower.Below v := by
  cases lower with
  | unbounded =>
    have hfloor : Key.floor c ≤ v := hv ▸ hg
    simpa [rangeBounds, hc, KeyBound.Below] using hfloor
  | included lo | excluded lo => rfl

/-- A search that keeps to a class starts at a key of the class. -/
theorem exists_start (hc : rangeClass lower upper = some c) :
    ∃ start : Key, start.keyClass = c ∧ ∀ v, (rangeBounds lower upper).1.Below v → start ≤ v := by
  cases lower with
  | unbounded => exact ⟨.floor c, by simp, fun v hv => by simpa [rangeBounds, hc, KeyBound.Below] using hv⟩
  | included lo => exact ⟨lo, Option.some.inj hc, fun v hv => hv⟩
  | excluded lo => exact ⟨lo, Option.some.inj hc, fun v hv => le_of_lt hv⟩

end Bounds

section Admitted

variable {s : OrderedSlots} (h : s.WF)

include h

theorem mem_admitted {admits : Key → Bool} {key : Key} :
    key ∈ (s.admitted admits).keys ↔ ∃ v, 0 < s.occurrences (.defined v) key ∧ admits v = true := by
  simp only [admitted, Lookup.mem_collect, List.mem_map, List.mem_filter, occurrences_defined_pos_iff h]
  constructor
  · rintro ⟨_, ⟨⟨v, p⟩, ⟨hm, hv⟩, rfl⟩, hkey⟩
    exact ⟨v, ⟨p, hm, hkey⟩, hv⟩
  · rintro ⟨v, ⟨p, hm, hkey⟩, hv⟩
    exact ⟨p.keys, ⟨(v, p), ⟨hm, hv⟩, rfl⟩, hkey⟩

theorem admitted_ascends (admits : Key → Bool) :
    (s.admitted admits).keys.Pairwise fun k k' =>
      ∀ v', 0 < s.occurrences (.defined v') k' → admits v' = true →
        ∃ v ≤ v', 0 < s.occurrences (.defined v) k ∧ admits v = true := by
  refine (collect_ascends (h.sorted.sublist (List.filter_sublist.map _))).imp ?_
  intro k k' hle v' hocc hv'
  obtain ⟨p', hm', hk'⟩ := (occurrences_defined_pos_iff h).1 hocc
  obtain ⟨⟨v, p⟩, he, hvle, hk⟩ := hle (v', p') (List.mem_filter.2 ⟨hm', hv'⟩) hk'
  obtain ⟨hm, hv⟩ := List.mem_filter.1 he
  exact ⟨v, hvle, (occurrences_defined_pos_iff h).2 ⟨p, hm, hk⟩, hv⟩

/-- What a look-up of defined slots finds, and in which order. -/
theorem lookup_eq {op : Comparison} (hop : op ≠ .isUndefined) {probe : Option Key}
    (hp : ∀ p ∈ probe, p.Grounded) (grounded : ∀ e ∈ s.values, e.1.Grounded) :
    s.lookup op probe = .ok (s.admitted fun v => op.holds (some v) probe) := by
  rw [lookup, matching_eq h hop hp grounded]
  simp only [Except.map, admitted, List.map_map]
  rfl

/-- The slots of a search between two bounds that some slot can satisfy. -/
theorem stretch_between {lower upper : KeyBound} (hd : lower.disjoint upper = false)
    (grounded : ∀ e ∈ s.values, e.1.Grounded) :
    s.stretch (fun v => (rangeBounds lower upper).1.admitsAbove v && (rangeBounds lower upper).2.admitsBelow v)
      (fun v => (rangeClass lower upper).all (v.keyClass == ·)) =
      s.values.filter fun e => KeyBound.Between lower upper e.1 := by
  cases hc : rangeClass lower upper with
  | none =>
    obtain ⟨rfl, rfl⟩ : lower = .unbounded ∧ upper = .unbounded := by
      cases lower <;> cases upper <;> simp_all [rangeClass, KeyBound.key?]
    rw [stretch, List.takeWhile_eq_self_iff.2 (by simp)]
    apply List.filter_congr
    intro e _
    simp [rangeBounds, rangeClass, KeyBound.key?, KeyBound.between_iff, KeyBound.Below, KeyBound.Above]
  | some c =>
    obtain ⟨start, hclass, hstart⟩ := exists_start hc
    have hsorted : Sorted (s.values.filter fun e =>
        (rangeBounds lower upper).1.admitsAbove e.1 && (rangeBounds lower upper).2.admitsBelow e.1) :=
      h.sorted.sublist (List.filter_sublist.map _)
    simp only [stretch, Option.all_some]
    rw [← hclass, takeWhile_class hsorted fun e he =>
      hstart e.1 ((KeyBound.admitsAbove_iff _ _).1 (Bool.and_elim_left (List.mem_filter.1 he).2)),
      List.filter_filter]
    apply List.filter_congr
    intro e he
    rw [Bool.eq_iff_iff]
    simp only [hclass, rangeBounds_snd, Bool.and_eq_true, beq_iff_eq, KeyBound.admitsAbove_iff,
      KeyBound.admitsBelow_iff, decide_eq_true_eq, KeyBound.between_iff, ofBounds_iff hd hc]
    constructor
    · rintro ⟨hv, habove, hbelow⟩
      exact ⟨(below_rangeBounds hc (grounded e he) hv).1 habove, hbelow, hv⟩
    · rintro ⟨habove, hbelow, hv⟩
      exact ⟨hv, (below_rangeBounds hc (grounded e he) hv).2 habove, hbelow⟩

/-- What a look-up between two bounds finds, whatever their shape, and in which order. -/
theorem lookupRange_eq {lower upper : KeyBound} (hl : ∀ k ∈ lower.key?, k.Grounded)
    (hu : ∀ k ∈ upper.key?, k.Grounded) (grounded : ∀ e ∈ s.values, e.1.Grounded) :
    s.lookupRange lower upper = .ok (s.admitted fun v => KeyBound.Between lower upper v) := by
  cases hd : lower.disjoint upper with
  | true =>
    have hnil : (s.values.filter fun e => KeyBound.Between lower upper e.1) = [] := by
      rw [List.filter_eq_nil_iff]
      intro e _ hb
      exact KeyBound.not_between_of_disjoint hd _ (of_decide_eq_true hb)
    simp [lookupRange, hd, admitted, hnil]
  | false =>
    rw [admitted, ← stretch_between h hd grounded, stretch, lookupRange]
    simp only [hd, slice, proper_rangeBounds hl hu hd, Bool.not_true, Bool.and_false, Bool.false_eq_true, if_false,
      Except.map]
    cases rangeClass lower upper <;> rfl

end Admitted

end OrderedSlots

end IndexedStore
