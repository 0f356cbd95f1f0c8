import IndexedStore.Proofs.Slots.Store
import Mathlib.Data.List.Sort
import Mathlib.Data.List.TakeWhile

/-!
# Stores with the same occurrences

Two stores of a kind that have the same occurrences find the same entry keys, however they came by them. A
range store keeps one thing beside its occurrences, whether it ever had a defined slot: only then does it
look at the bounds of a slice, and refuse improper ones. So a store that was emptied may refuse what a new
one answers with nothing (`Repeats.stale`); for probes and bounds that are keys of values there are no
improper bounds (`proper_boundsOf`, `proper_rangeBounds`).
-/

namespace IndexedStore

/-- How the look-up of a new store repeats that of an old one: it finds the same keys, or is refused for the
same reason, or has nothing to find where the old one refuses. -/
inductive Repeats {ε : Type} (improper : ε → Prop) : Except ε Lookup → Except ε Lookup → Prop where
  | found {x y : Lookup} (h : ∀ key, key ∈ y.keys ↔ key ∈ x.keys) : Repeats improper (.ok x) (.ok y)
  | refused (e : ε) : Repeats improper (.error e) (.error e)
  | stale {e : ε} {y : Lookup} (he : improper e) (hy : y.keys = []) : Repeats improper (.error e) (.ok y)

theorem Repeats.mapError {ε ε' : Type} {improper : ε → Prop} {improper' : ε' → Prop} {f : ε → ε'}
    (hf : ∀ e, improper e → improper' (f e)) {a b : Except ε Lookup} (h : Repeats improper a b) :
    Repeats improper' (a.mapError f) (b.mapError f) := by
  cases h with
  | found h => exact .found h
  | refused e => exact .refused (f e)
  | stale he hy => exact .stale (hf _ he) hy

/-- A look-up that the old store answers is repeated. -/
theorem Repeats.of_isOk {ε : Type} {improper : ε → Prop} {a b : Except ε Lookup} (h : Repeats improper a b)
    (ha : ∃ x, a = .ok x) : ∃ x y, a = .ok x ∧ b = .ok y ∧ ∀ key, key ∈ y.keys ↔ key ∈ x.keys := by
  obtain ⟨x, rfl⟩ := ha
  cases h with
  | found h => exact ⟨x, _, rfl, rfl, h⟩

def BoundsFault.Improper (fault : BoundsFault) : Prop := fault.lower.proper fault.upper = false

namespace OrderedSlots

variable {s s' : OrderedSlots}

theorem mem_keys_iff_occurs (h : s.WF) {v : Key} :
    v ∈ Table.keys s.values ↔ ∃ key, 0 < s.occurrences (.defined v) key := by
  constructor
  · intro hm
    obtain ⟨⟨_, p⟩, hp, rfl⟩ := List.mem_map.1 hm
    obtain ⟨hwf, hne⟩ := h.postings _ hp
    by_contra hnone
    refine absurd ((Postings.isEmpty_iff hwf).2 fun key => ?_) (by simp [hne])
    have hzero : s.occurrences (.defined _) key = 0 := Nat.eq_zero_of_not_pos fun hpos => hnone ⟨key, hpos⟩
    rwa [occurrences, under_of_mem h hp] at hzero
  · rintro ⟨key, hpos⟩
    obtain ⟨p, hm, -⟩ := (occurrences_defined_pos_iff h).1 hpos
    exact List.mem_map.2 ⟨_, hm, rfl⟩

/-- The slots of a store are determined by its occurrences. -/
theorem keys_eq (h : s.WF) (h' : s'.WF) (ho : ∀ slot key, s'.occurrences slot key = s.occurrences slot key) :
    Table.keys s'.values = Table.keys s.values := by
  have hmem : ∀ v, v ∈ Table.keys s'.values ↔ v ∈ Table.keys s.values := by
    intro v
    rw [mem_keys_iff_occurs h, mem_keys_iff_occurs h']
    simp only [ho]
  have hperm := (List.perm_ext_iff_of_nodup h'.sorted.unique h.sorted.unique).2 hmem
  exact hperm.eq_of_pairwise (fun a b _ _ hab hba => absurd hba (lt_asymm hab)) h'.sorted h.sorted

/-- The slots of a stretch: those that some condition admits, up to the first that another rules out. -/
def stretch (s : OrderedSlots) (admits goes : Key → Bool) : List (Key × Postings) :=
  (s.values.filter fun e => admits e.1).takeWhile fun e => goes e.1

theorem keys_stretch (s : OrderedSlots) (admits goes : Key → Bool) :
    Table.keys (s.stretch admits goes) = ((Table.keys s.values).filter admits).takeWhile goes := by
  rw [stretch, Table.keys, Table.keys, List.filter_map, List.takeWhile_map]
  rfl

/-- The entry keys under the slots of a stretch. -/
theorem mem_collect_stretch (h : s.WF) {admits goes : Key → Bool} {key : Key} :
    key ∈ (Lookup.collect true (((s.stretch admits goes).map (·.2)).map Postings.keys)).keys ↔
      ∃ v ∈ Table.keys (s.stretch admits goes), 0 < s.occurrences (.defined v) key := by
  have hsub : ∀ e ∈ s.stretch admits goes, e ∈ s.values := fun e he =>
    (List.mem_filter.1 ((List.takeWhile_sublist _).subset he)).1
  have hkeys : ∀ e ∈ s.stretch admits goes, (key ∈ e.2.keys ↔ 0 < s.occurrences (.defined e.1) key) := by
    intro e he
    rw [occurrences, under_of_mem h (hsub e he), Postings.count_pos_iff (h.postings e (hsub e he)).1]
  rw [Lookup.mem_collect, Table.keys]
  simp only [List.mem_map]
  constructor
  · rintro ⟨_, ⟨_, ⟨e, he, rfl⟩, rfl⟩, hkey⟩
    exact ⟨_, ⟨e, he, rfl⟩, (hkeys e he).1 hkey⟩
  · rintro ⟨_, ⟨e, he, rfl⟩, hpos⟩
    exact ⟨_, ⟨_, ⟨e, he, rfl⟩, rfl⟩, (hkeys e he).2 hpos⟩

/-- A slice, as far as it goes, as a look-up. -/
def between (s : OrderedSlots) (lower upper : KeyBound) (goes : Key → Bool) : Except BoundsFault Lookup :=
  (s.slice lower upper).map fun found =>
    .collect true (((found.takeWhile fun e => goes e.1).map (·.2)).map Postings.keys)

section Alike

variable (h : s.WF) (h' : s'.WF) (ho : ∀ slot key, s'.occurrences slot key = s.occurrences slot key)

include h h' ho

theorem stretch_alike (admits goes : Key → Bool) (key : Key) :
    key ∈ (Lookup.collect true (((s'.stretch admits goes).map (·.2)).map Postings.keys)).keys ↔
      key ∈ (Lookup.collect true (((s.stretch admits goes).map (·.2)).map Postings.keys)).keys := by
  rw [mem_collect_stretch h, mem_collect_stretch h', keys_stretch, keys_stretch, keys_eq h h' ho]
  simp only [ho]

theorem between_repeats (hr : s'.rooted = true → s.rooted = true) (lower upper : KeyBound) (goes : Key → Bool) :
    Repeats BoundsFault.Improper (s.between lower upper goes) (s'.between lower upper goes) := by
  have halike := stretch_alike h h' ho (fun v => lower.admitsAbove v && upper.admitsBelow v) goes
  unfold between slice
  cases hp : lower.proper upper with
  | true =>
    simp only [Bool.not_true, Bool.and_false, Bool.false_eq_true, if_false]
    exact .found halike
  | false =>
    cases hroot' : s'.rooted with
    | true =>
      simp only [hr hroot', Bool.not_false, Bool.and_self, if_true]
      exact .refused _
    | false =>
      -- a store that never had a defined slot has none
      have hnil : s'.values = [] := h'.rooted hroot'
      cases hroot : s.rooted with
      | true =>
        simp only [Bool.not_false, Bool.and_self, if_true, Bool.false_and, Bool.false_eq_true, if_false, hnil]
        exact .stale hp rfl
      | false =>
        simp only [Bool.not_false, Bool.and_true, Bool.false_eq_true, if_false]
        exact .found halike

theorem lookup_repeats (hr : s'.rooted = true → s.rooted = true) (op : Comparison) (probe : Option Key) :
    Repeats BoundsFault.Improper (s.lookup op probe) (s'.lookup op probe) := by
  have filtered : ∀ admits : Key → Bool, (∀ s : OrderedSlots, s.matching op probe =
      .ok ((s.values.filter fun e => admits e.1).map (·.2))) →
      Repeats BoundsFault.Improper (s.lookup op probe) (s'.lookup op probe) := by
    intro admits hm
    have hall : ∀ s : OrderedSlots, s.stretch admits (fun _ => true) = s.values.filter fun e => admits e.1 :=
      fun s => List.takeWhile_eq_self_iff.2 fun _ _ => rfl
    have halike := stretch_alike h h' ho admits fun _ => true
    rw [hall, hall] at halike
    simp only [lookup, hm, Except.map]
    exact .found halike
  have sliced : ∀ p, probe = some p → (∀ s : OrderedSlots, s.matching op probe =
      (s.slice (boundsOf op p).1 (boundsOf op p).2).map fun found =>
        (found.takeWhile fun e => e.1.keyClass == p.keyClass).map (·.2)) →
      Repeats BoundsFault.Improper (s.lookup op probe) (s'.lookup op probe) := by
    intro p _ hm
    have hbetween : ∀ s : OrderedSlots, s.lookup op probe =
        s.between (boundsOf op p).1 (boundsOf op p).2 fun v => v.keyClass == p.keyClass := by
      intro s
      rw [lookup, hm, between]
      cases s.slice (boundsOf op p).1 (boundsOf op p).2 <;> rfl
    rw [hbetween, hbetween]
    exact between_repeats h h' ho hr _ _ _
  cases op with
  | isUndefined =>
    refine .found fun key => ?_
    have hkeys : key ∈ s'.undefined.keys ↔ key ∈ s.undefined.keys := by
      rw [← occurrences_undefined_pos_iff h, ← occurrences_undefined_pos_iff h', ho]
    simpa [Lookup.mem_collect] using hkeys
  | ne => exact filtered (fun v => Comparison.ne.holds (some v) probe) fun _ => by cases probe <;> rfl
  | eq =>
    cases probe with
    | none => exact filtered (fun _ => false) fun s => by simp [matching]
    | some p => exact filtered (· == p) fun _ => rfl
  | lt | le | gt | ge =>
    cases probe with
    | none => exact filtered (fun _ => false) fun s => by simp [matching]
    | some p => exact sliced p rfl fun _ => rfl

theorem lookupRange_repeats (hr : s'.rooted = true → s.rooted = true) (lower upper : KeyBound) :
    Repeats BoundsFault.Improper (s.lookupRange lower upper) (s'.lookupRange lower upper) := by
  have hbetween : ∀ s : OrderedSlots, s.lookupRange lower upper =
      if lower.disjoint upper then .ok (.collect true []) else
        s.between (rangeBounds lower upper).1 (rangeBounds lower upper).2 fun v =>
          (rangeClass lower upper).all (v.keyClass == ·) := by
    intro s
    rw [lookupRange, between]
    split
    · rfl
    · simp only [List.map_map]
      cases rangeClass lower upper <;> rfl
  rw [hbetween, hbetween]
  split
  · exact .found fun _ => Iff.rfl
  · exact between_repeats h h' ho hr _ _ _

end Alike

/-- The bounds of keys of values, unless nothing can satisfy them, are proper. -/
theorem proper_rangeBounds {lower upper : KeyBound} (hl : ∀ k ∈ lower.key?, k.Grounded)
    (hu : ∀ k ∈ upper.key?, k.Grounded) (hd : lower.disjoint upper = false) :
    (rangeBounds lower upper).1.proper (rangeBounds lower upper).2 = true := by
  have upTo_of_before : ∀ {lo hi : Key}, hi.before lo = false → lo.upTo hi = true := by
    intro lo hi hb
    refine Key.upTo_iff_le.2 (le_of_not_gt fun hlt => ?_)
    simp [Key.before_iff_lt.2 hlt] at hb
  cases lower with
  | unbounded =>
    -- the class of the upper bound begins at its floor, which is included
    cases upper with
    | unbounded => rfl
    | included hi | excluded hi =>
      have hfloor : (Key.floor hi.keyClass).upTo hi = true := hu hi rfl
      simp [rangeBounds, rangeClass, KeyBound.proper, KeyBound.key?, KeyBound.isIncluded, hfloor]
  | included lo | excluded lo =>
    cases upper with
    | unbounded => rfl
    | included hi | excluded hi =>
      simp only [KeyBound.disjoint, KeyBound.key?, KeyBound.isIncluded, Bool.or_eq_false_iff] at hd
      simp only [rangeBounds, KeyBound.proper, KeyBound.key?, KeyBound.isIncluded, upTo_of_before hd.1.2]
      simp_all

/-- A look-up between the bounds of keys of values is not refused. -/
theorem lookupRange_isOk (s : OrderedSlots) {lower upper : KeyBound} (hl : ∀ k ∈ lower.key?, k.Grounded)
    (hu : ∀ k ∈ upper.key?, k.Grounded) : ∃ found, s.lookupRange lower upper = .ok found := by
  rw [lookupRange]
  split
  · exact ⟨_, rfl⟩
  · rename_i hd
    simp only [slice, proper_rangeBounds hl hu (by simpa using hd), Bool.not_true, Bool.and_false,
      Bool.false_eq_true, if_false]
    exact ⟨_, rfl⟩

theorem grown_add (s : OrderedSlots) (key : Key) (slot : Slot) (h : s.rooted = true → s.values ≠ []) :
    (s.add key slot).rooted = true → (s.add key slot).values ≠ [] := by
  cases slot with
  | defined v =>
    intro _ hnil
    have hv : v ∈ Table.keys (addUnder v key s.values) := mem_keys_addUnder.2 (.inl rfl)
    rw [show addUnder v key s.values = [] from hnil] at hv
    cases hv
  | undefined => exact h

end OrderedSlots

namespace SlotStore

variable {s s' : SlotStore}

/-- A store that has a defined slot if it ever had one, as a store does that nothing was taken out of. -/
def Grown : SlotStore → Prop
  | .ordered slots => slots.rooted = true → slots.values ≠ []
  | .striped _ | .unique _ => True

theorem grown_empty (kind : IndexKind) (name : String) (hasher : Hasher) (stripes : Nat) :
    (empty kind name hasher stripes).Grown := by
  cases kind <;> simp [empty, Grown, OrderedSlots.empty]

theorem Grown.update (h : s.Grown) (key : Key) (new : List Slot) : (s.update key [] new).2.Grown := by
  cases s with
  | striped | unique => trivial
  | ordered slots =>
    show Grown (.ordered (new.foldl (·.add key ·) slots))
    induction new generalizing slots with
    | nil => exact h
    | cons slot rest ih => exact ih _ (slots.grown_add key slot h)

section Alike

variable (h : s.WF) (h' : s'.WF) (hk : s'.kind = s.kind)
  (ho : ∀ slot key, s'.occurrences slot key = s.occurrences slot key) (hg : s'.Grown)

include h h' ho hg

/-- Where a grown store has had a defined slot, every store with its occurrences has. -/
theorem Grown.rooted {slots slots' : OrderedSlots} (hs : s = .ordered slots) (hs' : s' = .ordered slots') :
    slots'.rooted = true → slots.rooted = true := by
  subst hs hs'
  intro hr
  by_contra hroot
  have hkeys := OrderedSlots.keys_eq h h' ho
  rw [(show slots.WF from h).rooted (by simpa using hroot), Table.keys, Table.keys, List.map_nil,
    List.map_eq_nil_iff] at hkeys
  exact hg hr hkeys

include hk

/-- **A grown store repeats the look-ups of every store of its kind with its occurrences.** -/
theorem lookup_repeats {op : Comparison} (hop : s.kind.supports op = true) (probe : Option Key) :
    Repeats BoundsFault.Improper (s.lookup op probe) (s'.lookup op probe) := by
  cases s with
  | ordered slots =>
    cases s' with
    | ordered => exact OrderedSlots.lookup_repeats h h' ho (Grown.rooted h h' ho hg rfl rfl) op probe
    | striped | unique => cases hk
  | striped slots =>
    cases s' with
    | striped slots' =>
      have hop : op.isInequality = false := by simpa [kind, IndexKind.supports] using hop
      have ho : ∀ slot key, slots'.occurrences slot key = slots.occurrences slot key := ho
      refine .found fun key => ?_
      simp only [(StripedSlots.lookup_spec h hop probe).2, (StripedSlots.lookup_spec h' hop probe).2, ho]
    | ordered | unique => cases hk
  | unique slots =>
    cases s' with
    | unique slots' =>
      have hop : op.isInequality = false := by simpa [kind, IndexKind.supports] using hop
      have ho : ∀ slot key, slots'.occurrences slot key = slots.occurrences slot key := ho
      refine .found fun key => ?_
      simp only [(UniqueSlots.lookup_spec h hop probe).2, (UniqueSlots.lookup_spec h' hop probe).2, ho]
    | ordered | striped => cases hk

theorem lookupRange_repeats (lower upper : KeyBound) :
    (s.lookupRange? lower upper = none ∧ s'.lookupRange? lower upper = none) ∨
      ∃ a b, s.lookupRange? lower upper = some a ∧ s'.lookupRange? lower upper = some b ∧
        Repeats BoundsFault.Improper a b := by
  cases s with
  | ordered slots =>
    cases s' with
    | ordered =>
      exact .inr ⟨_, _, rfl, rfl,
        OrderedSlots.lookupRange_repeats h h' ho (Grown.rooted h h' ho hg rfl rfl) lower upper⟩
    | striped | unique => cases hk
  | striped slots =>
    cases s' with
    | striped => exact .inl ⟨rfl, rfl⟩
    | ordered | unique => cases hk
  | unique slots =>
    cases s' with
    | unique => exact .inl ⟨rfl, rfl⟩
    | ordered | striped => cases hk

end Alike

end SlotStore

end IndexedStore
