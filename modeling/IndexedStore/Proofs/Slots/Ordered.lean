import IndexedStore.Slots.Ordered
import IndexedStore.Proofs.KeyOrder
import IndexedStore.Proofs.Slots.Postings

/-!
# The ordered slot store

`occurrences` reads the store of a range index as a multiset of pairs of a slot and an entry key. An update takes the
old pairs out one by one, where they are there, and puts the new ones in (`update_occurrences`). A look-up finds the
entry keys that occur under a slot of which the comparison holds (`lookup_spec`), and is never refused: the slots
between the bounds that `RangeStructure::lookup` takes are those of the probe's class because classes do not
interleave and no stored key is below the floor of its class.
-/

namespace IndexedStore.OrderedSlots

/-- The postings of a slot. -/
def under (s : OrderedSlots) : Slot → Postings
  | .defined v => (Table.find? v s.values).getD .empty
  | .undefined => s.undefined

/-- How often an entry key is mapped to a slot. -/
def occurrences (s : OrderedSlots) (slot : Slot) (key : Key) : Nat := (s.under slot).count key

/-- The slots ascend. -/
def Sorted (values : List (Key × Postings)) : Prop := (Table.keys values).Pairwise (· < ·)

structure WF (s : OrderedSlots) : Prop where
  sorted : Sorted s.values
  postings : ∀ e ∈ s.values, e.2.WF ∧ e.2.isEmpty = false
  undefined : s.undefined.WF
  total : s.total = sumOf (·.2.total) s.values + s.undefined.total
  rooted : s.rooted = false → s.values = []

theorem wf_empty : empty.WF := ⟨.nil, by simp [empty], Postings.wf_empty, rfl, fun _ => rfl⟩

@[simp] theorem occurrences_empty (slot : Slot) (key : Key) : empty.occurrences slot key = 0 := by
  cases slot <;> rfl

theorem Sorted.unique {l : List (Key × Postings)} (h : Sorted l) : Table.Unique l :=
  h.imp fun hlt => ne_of_lt hlt

theorem sorted_cons {e : Key × Postings} {l : List (Key × Postings)} :
    Sorted (e :: l) ↔ (∀ k ∈ Table.keys l, e.1 < k) ∧ Sorted l := by
  simp [Sorted, Table.keys]

/-! ## Adding under a slot -/

theorem mem_keys_addUnder {value key k : Key} {l : List (Key × Postings)} :
    k ∈ Table.keys (addUnder value key l) ↔ k = value ∨ k ∈ Table.keys l := by
  induction l with
  | nil => simp [addUnder, Table.keys]
  | cons e l ih =>
    obtain ⟨v, p⟩ := e
    simp only [addUnder]
    cases hc : compare value v with
    | lt => simp [Table.keys]
    | eq => simp [Table.keys, Key.compare_eq_iff.1 hc]
    | gt =>
      simp only [Table.keys, List.map_cons, List.mem_cons] at ih ⊢
      rw [ih]; tauto

theorem Sorted.addUnder {l : List (Key × Postings)} (h : Sorted l) (value key : Key) :
    Sorted (addUnder value key l) := by
  induction l with
  | nil => simp [OrderedSlots.addUnder, Sorted, Table.keys]
  | cons e l ih =>
    obtain ⟨v, p⟩ := e
    obtain ⟨hv, hl⟩ := sorted_cons.1 h
    simp only [OrderedSlots.addUnder]
    cases hc : compare value v with
    | lt =>
      have hlt := Key.compare_eq_lt_iff.1 hc
      refine sorted_cons.2 ⟨?_, h⟩
      intro k hk
      rcases List.mem_cons.1 hk with rfl | hk
      · exact hlt
      · exact lt_trans hlt (hv k hk)
    | eq => exact sorted_cons.2 ⟨hv, hl⟩
    | gt =>
      refine sorted_cons.2 ⟨?_, ih hl⟩
      intro k hk
      rcases mem_keys_addUnder.1 hk with rfl | hk
      · exact Key.compare_eq_gt_iff.1 hc
      · exact hv k hk

theorem forall_addUnder {l : List (Key × Postings)} (h : ∀ e ∈ l, e.2.WF ∧ e.2.isEmpty = false)
    (value key : Key) : ∀ e ∈ addUnder value key l, e.2.WF ∧ e.2.isEmpty = false := by
  have added : ∀ p : Postings, p.WF → (p.add key).WF ∧ (p.add key).isEmpty = false := by
    intro p hp
    refine ⟨hp.add key, Bool.eq_false_iff.2 ?_⟩
    intro he
    have := (Postings.isEmpty_iff (hp.add key)).1 he key
    simp at this
  induction l with
  | nil => simpa [addUnder] using added _ Postings.wf_empty
  | cons e l ih =>
    obtain ⟨v, p⟩ := e
    have hp := h (v, p) (by simp)
    have hl : ∀ e ∈ l, e.2.WF ∧ e.2.isEmpty = false := fun e he => h e (List.mem_cons_of_mem _ he)
    simp only [addUnder]
    cases hc : compare value v with
    | lt => exact List.forall_mem_cons.2 ⟨added _ Postings.wf_empty, h⟩
    | eq => exact List.forall_mem_cons.2 ⟨added _ hp.1, hl⟩
    | gt => exact List.forall_mem_cons.2 ⟨hp, ih hl⟩

theorem sumOf_addUnder (value key : Key) (l : List (Key × Postings)) :
    sumOf (·.2.total) (addUnder value key l) = sumOf (·.2.total) l + 1 := by
  induction l with
  | nil => rfl
  | cons e l ih =>
    obtain ⟨v, p⟩ := e
    simp only [addUnder]
    cases compare value v <;> simp [sumOf, Postings.add, Postings.empty] at * <;> omega

theorem find?_addUnder {l : List (Key × Postings)} (h : Sorted l) (value key v : Key) :
    (Table.find? v (addUnder value key l)).getD .empty =
      if v = value then ((Table.find? v l).getD .empty).add key else (Table.find? v l).getD .empty := by
  induction l with
  | nil =>
    by_cases hv : v = value
    · subst hv; simp [addUnder, Table.find?]
    · simp [addUnder, Table.find?, hv, Ne.symm hv]
  | cons e l ih =>
    obtain ⟨w, p⟩ := e
    obtain ⟨hw, hl⟩ := sorted_cons.1 h
    simp only [addUnder]
    cases hc : compare value w with
    | lt =>
      have hlt := Key.compare_eq_lt_iff.1 hc
      by_cases hv : v = value
      · -- the slot is new, so nothing stands under it yet
        subst hv
        have : Table.find? v l = none :=
          Table.find?_eq_none_iff.2 fun hm => lt_asymm hlt (hw v hm)
        simp [Table.find?, this, ne_of_gt hlt]
      · simp [Table.find?, hv, Ne.symm hv]
    | eq =>
      obtain rfl := Key.compare_eq_iff.1 hc
      by_cases hv : value = v
      · subst hv; simp [Table.find?]
      · simp [Table.find?, hv, Ne.symm hv]
    | gt =>
      have hgt := Key.compare_eq_gt_iff.1 hc
      by_cases hv : w = v
      · subst hv; simp [Table.find?, ne_of_lt hgt]
      · simp [Table.find?, hv, ih hl]

/-! ## Removing under a slot -/

theorem removeUnder?_eq_none_iff {l : List (Key × Postings)} (h : ∀ e ∈ l, e.2.WF ∧ e.2.isEmpty = false)
    (value key : Key) :
    removeUnder? value key l = none ↔ ((Table.find? value l).getD .empty).count key = 0 := by
  induction l with
  | nil => simp [removeUnder?]
  | cons e l ih =>
    obtain ⟨v, p⟩ := e
    have hp := h (v, p) (by simp)
    by_cases hv : v = value
    · simp [removeUnder?, Table.find?, hv, Postings.remove?_eq_none_iff hp.1]
    · simpa [removeUnder?, Table.find?, hv] using ih fun e he => h e (List.mem_cons_of_mem _ he)

/-- What is left after a removal: fewer slots, each with its postings, and one occurrence less. -/
theorem removeUnder?_spec {l left : List (Key × Postings)} {value key : Key}
    (hr : removeUnder? value key l = some left) (hs : Sorted l)
    (h : ∀ e ∈ l, e.2.WF ∧ e.2.isEmpty = false) :
    (Table.keys left).Sublist (Table.keys l) ∧ (∀ e ∈ left, e.2.WF ∧ e.2.isEmpty = false) ∧
      sumOf (·.2.total) left + 1 = sumOf (·.2.total) l ∧
      ∀ v k, ((Table.find? v left).getD .empty).count k =
        ((Table.find? v l).getD .empty).count k - if v = value ∧ k = key then 1 else 0 := by
  induction l generalizing left with
  | nil => simp [removeUnder?] at hr
  | cons e l ih =>
    obtain ⟨w, p⟩ := e
    obtain ⟨hw, hl⟩ := sorted_cons.1 hs
    have hp := h (w, p) (by simp)
    have hrest : ∀ e ∈ l, e.2.WF ∧ e.2.isEmpty = false := fun e he => h e (List.mem_cons_of_mem _ he)
    by_cases hv : w = value
    · subst hv
      simp only [removeUnder?, if_true, Option.map_eq_some_iff] at hr
      obtain ⟨q, hq, rfl⟩ := hr
      obtain ⟨hqwf, hqt, -, hqc⟩ := Postings.remove?_spec hp.1 hq
      simp only at hqt hqc
      have hnone : Table.find? w l = none :=
        Table.find?_eq_none_iff.2 fun hm => lt_irrefl _ (hw w hm)
      by_cases he : q.isEmpty = true
      · simp only [he, if_true]
        have hqt0 : q.total = 0 := by
          have := hqwf.total
          rw [List.isEmpty_iff.1 he] at this
          simpa [sumOf] using this
        refine ⟨by simp [Table.keys], hrest, by simp [sumOf]; omega, ?_⟩
        intro v k
        by_cases hvw : w = v
        · subst hvw
          have hc := (Postings.isEmpty_iff hqwf).1 he k
          rw [hqc k] at hc
          simp [Table.find?, hnone, hc]
        · simp [Table.find?, hvw, Ne.symm hvw]
      · have hef : q.isEmpty = false := by simpa using he
        simp only [hef, Bool.false_eq_true, if_false]
        refine ⟨by simp [Table.keys], List.forall_mem_cons.2 ⟨⟨hqwf, hef⟩, hrest⟩,
          by simp [sumOf]; omega, ?_⟩
        intro v k
        by_cases hvw : w = v
        · subst hvw; simp [Table.find?, hqc k]
        · simp [Table.find?, hvw, Ne.symm hvw]
    · simp only [removeUnder?, hv, if_false, Option.map_eq_some_iff] at hr
      obtain ⟨rest, hrr, rfl⟩ := hr
      obtain ⟨hk, hwf, ht, hc⟩ := ih hrr hl hrest
      refine ⟨hk.cons_cons w, List.forall_mem_cons.2 ⟨hp, hwf⟩, by simp [sumOf] at *; omega, ?_⟩
      intro v k
      by_cases hvw : w = v
      · subst hvw; simp [Table.find?, hv]
      · simpa [Table.find?, hvw] using hc v k

/-! ## One mapping more or less -/

theorem WF.add {s : OrderedSlots} (h : s.WF) (key : Key) (slot : Slot) : (s.add key slot).WF := by
  cases slot with
  | defined v =>
    exact ⟨h.sorted.addUnder v key, forall_addUnder h.postings v key, h.undefined,
      by have := h.total; simp only [OrderedSlots.add, sumOf_addUnder]; omega, by simp [OrderedSlots.add]⟩
  | undefined =>
    exact ⟨h.sorted, h.postings, h.undefined.add key,
      by have := h.total; simp only [OrderedSlots.add, Postings.add]; omega, h.rooted⟩

theorem occurrences_add {s : OrderedSlots} (h : s.WF) (key k : Key) (slot sl : Slot) :
    (s.add key slot).occurrences sl k = s.occurrences sl k + if sl = slot ∧ k = key then 1 else 0 := by
  cases slot with
  | defined v =>
    cases sl with
    | defined w =>
      simp only [occurrences, under, add, find?_addUnder h.sorted, Slot.defined.injEq]
      by_cases hw : w = v <;> simp [hw]
    | undefined => simp [occurrences, under, add]
  | undefined => cases sl <;> simp [occurrences, under, add]

theorem WF.remove {s : OrderedSlots} (h : s.WF) (key : Key) (slot : Slot) : (s.remove key slot).WF := by
  have ht := h.total
  cases slot with
  | defined v =>
    simp only [OrderedSlots.remove]
    cases hr : removeUnder? v key s.values with
    | none => exact h
    | some left =>
      obtain ⟨hk, hp, hsum, -⟩ := removeUnder?_spec hr h.sorted h.postings
      refine ⟨h.sorted.sublist hk, hp, h.undefined, by simp only; omega, ?_⟩
      intro hroot
      have := h.rooted hroot
      simp [this, removeUnder?] at hr
  | undefined =>
    simp only [OrderedSlots.remove]
    cases hr : s.undefined.remove? key with
    | none => exact h
    | some left =>
      obtain ⟨hwf, htot, -, -⟩ := Postings.remove?_spec h.undefined hr
      exact ⟨h.sorted, h.postings, hwf, by simp only; omega, h.rooted⟩

theorem occurrences_remove {s : OrderedSlots} (h : s.WF) (key k : Key) (slot sl : Slot) :
    (s.remove key slot).occurrences sl k = s.occurrences sl k - if sl = slot ∧ k = key then 1 else 0 := by
  cases slot with
  | defined v =>
    simp only [OrderedSlots.remove]
    cases hr : removeUnder? v key s.values with
    | none =>
      have h0 := (removeUnder?_eq_none_iff h.postings v key).1 hr
      by_cases hsk : sl = .defined v ∧ k = key
      · obtain ⟨rfl, rfl⟩ := hsk; simp [occurrences, under, h0]
      · simp [hsk]
    | some left =>
      obtain ⟨-, -, -, hc⟩ := removeUnder?_spec hr h.sorted h.postings
      cases sl with
      | defined w => simpa [occurrences, under] using hc w k
      | undefined => simp [occurrences, under]
  | undefined =>
    simp only [OrderedSlots.remove]
    cases hr : s.undefined.remove? key with
    | none =>
      have h0 := (Postings.remove?_eq_none_iff h.undefined).1 hr
      by_cases hsk : sl = .undefined ∧ k = key
      · obtain ⟨rfl, rfl⟩ := hsk; simp [occurrences, under, h0]
      · simp [hsk]
    | some left =>
      obtain ⟨-, -, -, hc⟩ := Postings.remove?_spec h.undefined hr
      cases sl with
      | defined w => simp [occurrences, under]
      | undefined => simpa [occurrences, under] using hc k

/-! ## Updates -/

/-- Mappings taken out one by one. -/
theorem foldl_remove_spec {s : OrderedSlots} (h : s.WF) (key : Key) (slots : List Slot) :
    (slots.foldl (·.remove key ·) s).WF ∧ ∀ slot k, (slots.foldl (·.remove key ·) s).occurrences slot k =
      s.occurrences slot k - if k = key then slots.count slot else 0 := by
  have removed : ∀ slot ∈ slots, ∀ s : OrderedSlots, s.WF → (s.remove key slot).WF ∧ ∀ sl k,
      (s.remove key slot).occurrences sl k = s.occurrences sl k - if sl = slot ∧ k = key then 1 else 0 :=
    fun slot _ _ hs => ⟨hs.remove key slot, fun sl k => occurrences_remove hs key k slot sl⟩
  exact foldl_removed removed h

/-- **An update keeps the store well formed and exchanges the mappings of its key.** -/
theorem update_spec {s : OrderedSlots} (h : s.WF) (key : Key) (old new : List Slot) :
    (s.update key old new).WF ∧ ∀ slot k, (s.update key old new).occurrences slot k =
      s.occurrences slot k - (if k = key then old.count slot else 0) +
        if k = key then new.count slot else 0 := by
  have added : ∀ slot ∈ new, ∀ s : OrderedSlots, s.WF → (s.add key slot).WF ∧ ∀ sl k,
      (s.add key slot).occurrences sl k = s.occurrences sl k + if sl = slot ∧ k = key then 1 else 0 :=
    fun slot _ _ hs => ⟨hs.add key slot, fun sl k => occurrences_add hs key k slot sl⟩
  obtain ⟨hwf, hocc⟩ := foldl_remove_spec h key old
  obtain ⟨hwf', hocc'⟩ := foldl_added added hwf
  exact ⟨hwf', fun slot k => by rw [update, hocc', hocc]⟩

/-! ## Look-ups -/

theorem under_of_mem {s : OrderedSlots} (h : s.WF) {v : Key} {p : Postings} (hm : (v, p) ∈ s.values) :
    s.under (.defined v) = p := by
  simp [under, (Table.find?_eq_some_iff h.sorted.unique).2 hm]

/-- A key occurs under a defined slot exactly when it is among the postings that stand there. -/
theorem occurrences_defined_pos_iff {s : OrderedSlots} (h : s.WF) {v key : Key} :
    0 < s.occurrences (.defined v) key ↔ ∃ p, (v, p) ∈ s.values ∧ key ∈ p.keys := by
  constructor
  · intro hpos
    cases hf : Table.find? v s.values with
    | none => simp [occurrences, under, hf] at hpos
    | some p =>
      have hm := Table.mem_of_find? hf
      refine ⟨p, hm, (Postings.count_pos_iff (h.postings _ hm).1).1 ?_⟩
      simpa [occurrences, under, hf] using hpos
  · rintro ⟨p, hm, hk⟩
    rw [occurrences, under_of_mem h hm]
    exact (Postings.count_pos_iff (h.postings _ hm).1).2 hk

theorem occurrences_undefined_pos_iff {s : OrderedSlots} (h : s.WF) {key : Key} :
    0 < s.occurrences .undefined key ↔ key ∈ s.undefined.keys :=
  Postings.count_pos_iff h.undefined

theorem contains_iff {s : OrderedSlots} (h : s.WF) {slot : Slot} {key : Key} :
    s.contains slot key = true ↔ 0 < s.occurrences slot key := by
  cases slot with
  | defined v =>
    rw [occurrences_defined_pos_iff h]
    simp only [contains, List.any_eq_true, Bool.and_eq_true, beq_iff_eq]
    constructor
    · rintro ⟨⟨w, p⟩, hm, rfl, hk⟩
      exact ⟨p, hm, (Postings.count_pos_iff (h.postings _ hm).1).1
        ((Postings.contains_iff (h.postings _ hm).1).1 hk)⟩
    · rintro ⟨p, hm, hk⟩
      exact ⟨(v, p), hm, rfl, (Postings.contains_iff (h.postings _ hm).1).2
        ((Postings.count_pos_iff (h.postings _ hm).1).2 hk)⟩
  | undefined => exact Postings.contains_iff h.undefined

/-- From a bound on, the slots of the bound's class come first: classes do not interleave. -/
theorem takeWhile_class {l : List (Key × Postings)} (hs : Sorted l) {bound : Key}
    (hb : ∀ e ∈ l, bound ≤ e.1) :
    (l.takeWhile fun e => e.1.keyClass == bound.keyClass) =
      l.filter fun e => e.1.keyClass == bound.keyClass := by
  induction l with
  | nil => rfl
  | cons e l ih =>
    obtain ⟨hlt, hl⟩ := sorted_cons.1 hs
    have hrest : ∀ e ∈ l, bound ≤ e.1 := fun e he => hb e (List.mem_cons_of_mem _ he)
    by_cases hc : e.1.keyClass = bound.keyClass
    · rw [List.takeWhile_cons_of_pos (by simpa using hc), List.filter_cons_of_pos (by simpa using hc),
        ih hl hrest]
    · rw [List.takeWhile_cons_of_neg (by simpa using hc), List.filter_cons_of_neg (by simpa using hc)]
      symm
      rw [List.filter_eq_nil_iff]
      -- a later slot of the bound's class would enclose this one between two keys of that class
      intro e' he' hc'
      have hle : e.1 ≤ e'.1 := le_of_lt (hlt _ (List.mem_map.2 ⟨e', he', rfl⟩))
      have hcls : bound.keyClass = e'.1.keyClass := by simpa using (beq_iff_eq.1 hc').symm
      exact hc ((Key.keyClass_between (hb e (by simp)) hle hcls).trans hcls.symm)

/-- The lower bound of a comparison of order is of the class of a grounded probe and not above it, so
the bounds are proper. -/
theorem proper_boundsOf {op : Comparison} {probe : Key} (hp : probe.Grounded) :
    (boundsOf op probe).1.proper (boundsOf op probe).2 = true := by
  have hle : (Key.floor probe.keyClass).upTo probe = true := hp
  cases op <;> simp [boundsOf, KeyBound.proper, KeyBound.key?, KeyBound.isIncluded, hle]

/-- The slots that a comparison of order looks at are those that satisfy it. -/
theorem matching_inequality {s : OrderedSlots} (h : s.WF) {op : Comparison} (ho : op.isInequality = true)
    {probe : Key} (hp : probe.Grounded) (grounded : ∀ e ∈ s.values, e.1.Grounded) :
    s.matching op (some probe) =
      .ok ((s.values.filter fun e => op.holds (some e.1) (some probe)).map (·.2)) := by
  have slice_eq : s.slice (boundsOf op probe).1 (boundsOf op probe).2 = .ok (s.values.filter fun e =>
      (boundsOf op probe).1.admitsAbove e.1 && (boundsOf op probe).2.admitsBelow e.1) := by
    simp [slice, proper_boundsOf hp]
  have matching_eq : s.matching op (some probe) = .ok (((s.values.filter fun e =>
      (boundsOf op probe).1.admitsAbove e.1 && (boundsOf op probe).2.admitsBelow e.1).takeWhile
        fun e => e.1.keyClass == probe.keyClass).map (·.2)) := by
    cases op <;> first | exact absurd ho (by decide) | (simp only [matching, slice_eq]; rfl)
  -- the bound that the slice starts at
  obtain ⟨bound, hclass, hbound⟩ : ∃ bound : Key, bound.keyClass = probe.keyClass ∧
      ∀ k, (boundsOf op probe).1.admitsAbove k = true → bound ≤ k := by
    cases op
    case lt | le => exact ⟨.floor probe.keyClass, by simp, fun k hk => Key.upTo_iff_le.1 hk⟩
    case gt => exact ⟨probe, rfl, fun k hk => le_of_lt (Key.before_iff_lt.1 hk)⟩
    case ge => exact ⟨probe, rfl, fun k hk => Key.upTo_iff_le.1 hk⟩
    all_goals exact absurd ho (by decide)
  have hsorted : Sorted (s.values.filter fun e =>
      (boundsOf op probe).1.admitsAbove e.1 && (boundsOf op probe).2.admitsBelow e.1) :=
    h.sorted.sublist (List.filter_sublist.map _)
  rw [matching_eq, ← hclass, takeWhile_class hsorted (fun e he => hbound e.1 (by
    simp only [List.mem_filter, Bool.and_eq_true] at he; exact he.2.1)), List.filter_filter]
  congr 2
  apply List.filter_congr
  intro e he
  rw [Bool.eq_iff_iff, Comparison.holds_inequality ho]
  have hfloor : e.1.keyClass = probe.keyClass → Key.floor probe.keyClass ≤ e.1 := by
    intro hc
    rw [← hc]; exact grounded e he
  simp only [hclass, Bool.and_eq_true, beq_iff_eq, Option.some.injEq, exists_and_left, exists_eq_left']
  cases op <;> first | exact absurd ho (by decide) | skip
  all_goals
    simp only [boundsOf, KeyBound.admitsAbove, KeyBound.admitsBelow, Comparison.compareKeys,
      Key.before_iff_lt, Key.upTo_iff_le]
    tauto

/-- The slots that a look-up finds, other than the undefined one, are those that satisfy the comparison. -/
theorem matching_eq {s : OrderedSlots} (h : s.WF) {op : Comparison} (hop : op ≠ .isUndefined)
    {probe : Option Key} (hp : ∀ p ∈ probe, p.Grounded) (grounded : ∀ e ∈ s.values, e.1.Grounded) :
    s.matching op probe = .ok ((s.values.filter fun e => op.holds (some e.1) probe).map (·.2)) := by
  by_cases ho : op.isInequality = true
  · cases probe with
    | none =>
      have hnil : (s.values.filter fun e => op.holds (some e.1) none) = [] := by
        rw [List.filter_eq_nil_iff]
        intro e _ he
        obtain ⟨_, _, _, hn, _⟩ := (Comparison.holds_inequality ho _ _).1 he
        cases hn
      rw [hnil]
      cases op <;> first | rfl | exact absurd ho (by decide)
    | some p => exact matching_inequality h ho (hp p rfl) grounded
  · cases op <;> first | exact absurd rfl ho | skip
    case eq =>
      cases probe with
      | none => simp [matching, Comparison.holds]
      | some q =>
        have hsame : (s.values.filter fun e => e.1 == q) =
            s.values.filter fun e => Comparison.eq.holds (some e.1) (some q) := by
          apply List.filter_congr
          intro e _
          rw [Bool.eq_iff_iff, Comparison.holds_eq]
          simp
        rw [← hsame]
        rfl
    case ne => cases probe <;> rfl
    case isUndefined => exact absurd rfl hop

/-- The postings that a look-up finds, whatever the comparison. -/
theorem matching_spec {s : OrderedSlots} (h : s.WF) (op : Comparison) {probe : Option Key}
    (hp : ∀ p ∈ probe, p.Grounded) (grounded : ∀ e ∈ s.values, e.1.Grounded) :
    ∃ found, s.matching op probe = .ok found ∧
      ∀ p, p ∈ found ↔ (op = .isUndefined ∧ p = s.undefined) ∨
        ∃ v, (v, p) ∈ s.values ∧ op.holds (some v) probe = true := by
  by_cases hop : op = .isUndefined
  · subst hop
    exact ⟨[s.undefined], rfl, fun p => by simp [Comparison.holds]⟩
  · exact ⟨_, matching_eq h hop hp grounded, fun p => by simp [hop]⟩

/-- A slot that stands in the store is one that some key occurs under. -/
theorem grounded_values {s : OrderedSlots} (h : s.WF)
    (grounded : ∀ v key, 0 < s.occurrences (.defined v) key → v.Grounded) : ∀ e ∈ s.values, e.1.Grounded := by
  rintro ⟨v, p⟩ he
  obtain ⟨hwf, hne⟩ := h.postings _ he
  -- postings that stand there are not empty
  have : ∃ key, p.count key ≠ 0 := by
    by_contra hc
    exact absurd ((Postings.isEmpty_iff hwf).2 fun key => not_not.1 fun h0 => hc ⟨key, h0⟩) (by simp [hne])
  obtain ⟨key, hkey⟩ := this
  exact grounded v key (by rw [occurrences, under_of_mem h he]; omega)

/-- **A look-up is not refused, and finds each key with a slot that satisfies the comparison once.** -/
theorem lookup_spec {s : OrderedSlots} (h : s.WF) (op : Comparison) {probe : Option Key}
    (hp : ∀ p ∈ probe, p.Grounded)
    (grounded : ∀ v key, 0 < s.occurrences (.defined v) key → v.Grounded) :
    ∃ found, s.lookup op probe = .ok found ∧ found.keys.Nodup ∧ ∀ key, key ∈ found.keys ↔
      ∃ slot, 0 < s.occurrences slot key ∧ op.holds slot.key? probe = true := by
  obtain ⟨found, hm, hfound⟩ := matching_spec h op hp (grounded_values h grounded)
  refine ⟨.collect true (found.map Postings.keys), by simp [lookup, hm, Except.map],
    Lookup.collect_nodup _ _, ?_⟩
  intro key
  rw [Lookup.mem_collect]
  constructor
  · rintro ⟨keys, hkeys, hkey⟩
    obtain ⟨p, hpm, rfl⟩ := List.mem_map.1 hkeys
    rcases (hfound p).1 hpm with ⟨rfl, rfl⟩ | ⟨v, hv, hholds⟩
    · exact ⟨.undefined, (occurrences_undefined_pos_iff h).2 hkey, rfl⟩
    · exact ⟨.defined v, (occurrences_defined_pos_iff h).2 ⟨p, hv, hkey⟩, hholds⟩
  · rintro ⟨slot, hpos, hholds⟩
    cases slot with
    | defined v =>
      obtain ⟨p, hv, hkey⟩ := (occurrences_defined_pos_iff h).1 hpos
      exact ⟨p.keys, List.mem_map.2 ⟨p, (hfound p).2 (.inr ⟨v, hv, hholds⟩), rfl⟩, hkey⟩
    | undefined =>
      have hop := (Comparison.holds_none op probe).1 hholds
      exact ⟨s.undefined.keys, List.mem_map.2 ⟨s.undefined, (hfound _).2 (.inl ⟨hop, rfl⟩), rfl⟩,
        (occurrences_undefined_pos_iff h).1 hpos⟩

end IndexedStore.OrderedSlots
