import IndexedStore.Slots.Striped
import IndexedStore.Proofs.Slots.Postings

/-!
# The striped slot store

The stripes that an update holds ascend and cover the stripes of its slots (`held_ascending`,
`mem_held`), and halving finds each of them (`place?_spec`), so no slot is passed over: `change_eq`.
Beyond that a striped store is read as the ordered one is, as a multiset of pairs of a slot and an entry
key. A slot stands in its own stripe only.
-/

namespace IndexedStore

namespace Stripe

/-- How often an entry key is mapped to a slot. -/
def occurrences (s : Stripe) (slot : Slot) (key : Key) : Nat := (s.postings slot).count key

structure WF (s : Stripe) : Prop where
  unique : Table.Unique s.slots
  postings : ∀ e ∈ s.slots, e.2.WF ∧ e.2.isEmpty = false
  total : s.total = sumOf (·.2.total) s.slots

theorem wf_empty : empty.WF := ⟨by simp [empty], by simp [empty], rfl⟩

@[simp] theorem occurrences_empty (slot : Slot) (key : Key) : empty.occurrences slot key = 0 := rfl

theorem occurrences_pos_iff {s : Stripe} (h : s.WF) {slot : Slot} {key : Key} :
    0 < s.occurrences slot key ↔ ∃ p, (slot, p) ∈ s.slots ∧ key ∈ p.keys := by
  constructor
  · intro hpos
    cases hf : Table.find? slot s.slots with
    | none => simp [occurrences, postings, hf] at hpos
    | some p =>
      have hm := Table.mem_of_find? hf
      refine ⟨p, hm, (Postings.count_pos_iff (h.postings _ hm).1).1 ?_⟩
      simpa [occurrences, Stripe.postings, hf] using hpos
  · rintro ⟨p, hm, hk⟩
    rw [occurrences, Stripe.postings, (Table.find?_eq_some_iff h.unique).2 hm]
    exact (Postings.count_pos_iff (h.postings _ hm).1).2 hk

theorem postings_wf {s : Stripe} (h : s.WF) (slot : Slot) : (s.postings slot).WF := by
  rw [Stripe.postings]
  cases hf : Table.find? slot s.slots with
  | none => exact Postings.wf_empty
  | some p => exact (h.postings _ (Table.mem_of_find? hf)).1

/-- A stripe with other slots, of which only one slot's postings changed. -/
def Changed (s s' : Stripe) (slot : Slot) (change : Key → Nat → Nat) : Prop :=
  s'.WF ∧ (∀ e ∈ s'.slots, e.1 = slot ∨ e.1 ∈ Table.keys s.slots) ∧ ∀ sl key,
    s'.occurrences sl key = if sl = slot then change key (s.occurrences sl key) else s.occurrences sl key

theorem add_spec {s : Stripe} (h : s.WF) (key : Key) (slot : Slot) :
    s.Changed (s.add key slot) slot fun k n => n + if k = key then 1 else 0 := by
  have hwf := (postings_wf h slot).add key
  have hne : ((s.postings slot).add key).isEmpty = false := by
    apply Bool.eq_false_iff.2
    intro he
    have := (Postings.isEmpty_iff hwf).1 he key
    simp at this
  refine ⟨⟨h.unique.set slot _, Table.forall_set h.postings ⟨hwf, hne⟩, ?_⟩, ?_, ?_⟩
  · have hs := Table.sumOf_set (·.2.total) s.slots slot ((s.postings slot).add key)
    have ht := h.total
    cases hf : Table.find? slot s.slots <;>
      simp only [Stripe.add, Stripe.postings, Postings.add, Postings.empty, hf, Option.getD_some,
        Option.getD_none] at hs ⊢ <;>
      omega
  · refine Table.forall_set (fun e he => .inr (List.mem_map.2 ⟨e, he, rfl⟩)) (.inl rfl)
  · intro sl k
    by_cases hsl : sl = slot
    · subst hsl; simp [occurrences, Stripe.postings, Stripe.add]
    · simp [occurrences, Stripe.postings, Stripe.add, hsl, Ne.symm hsl]

theorem remove_spec {s : Stripe} (h : s.WF) (key : Key) (slot : Slot) :
    s.Changed (s.remove key slot) slot fun k n => n - if k = key then 1 else 0 := by
  have unchanged : s.occurrences slot key = 0 →
      s.Changed s slot fun k n => n - if k = key then 1 else 0 := by
    intro h0
    refine ⟨h, fun e he => .inr (List.mem_map.2 ⟨e, he, rfl⟩), ?_⟩
    intro sl k
    split
    · rename_i hsl
      subst hsl
      by_cases hk : k = key
      · subst hk; simp [h0]
      · simp [hk]
    · rfl
  unfold remove
  cases hf : Table.find? slot s.slots with
  | none => exact unchanged (by simp [occurrences, Stripe.postings, hf])
  | some p =>
    have hm := Table.mem_of_find? hf
    obtain ⟨hp, hne⟩ := h.postings _ hm
    have hunder : s.postings slot = p := by simp [Stripe.postings, hf]
    cases hr : p.remove? key with
    | none =>
      simp only [hr, hne, Bool.false_eq_true, if_false]
      exact unchanged (by rw [occurrences, hunder]; exact (Postings.remove?_eq_none_iff hp).1 hr)
    | some left =>
      obtain ⟨hlwf, hlt, -, hlc⟩ := Postings.remove?_spec hp hr
      have hse := Table.sumOf_erase (·.2.total) s.slots slot
      have hss := Table.sumOf_set (·.2.total) s.slots slot left
      have ht := h.total
      simp only at hlt hlc
      simp only [hf] at hse hss
      simp only [hr]
      by_cases he : left.isEmpty = true
      · have hl0 : left.total = 0 := by
          have := hlwf.total
          rw [List.isEmpty_iff.1 he] at this
          simpa [sumOf] using this
        simp only [he, if_true]
        refine ⟨⟨h.unique.erase slot, fun e he => h.postings e (Table.mem_of_mem_erase he), by simp only; omega⟩,
          fun e he => .inr (List.mem_map.2 ⟨e, Table.mem_of_mem_erase he, rfl⟩), ?_⟩
        intro sl k
        by_cases hsl : sl = slot
        · subst hsl
          have hcount := (Postings.isEmpty_iff hlwf).1 he k
          rw [hlc] at hcount
          simp [occurrences, Stripe.postings, Table.find?_erase h.unique, hf, hcount]
        · simp [occurrences, Stripe.postings, Table.find?_erase h.unique, hsl, Ne.symm hsl]
      · have hef : left.isEmpty = false := by simpa using he
        simp only [hef, Bool.false_eq_true, if_false]
        refine ⟨⟨h.unique.set slot _, Table.forall_set h.postings ⟨hlwf, hef⟩, by simp only; omega⟩,
          Table.forall_set (fun e he => .inr (List.mem_map.2 ⟨e, he, rfl⟩)) (.inl rfl), ?_⟩
        intro sl k
        by_cases hsl : sl = slot
        · subst hsl; simp [occurrences, Stripe.postings, hf, hlc]
        · simp [occurrences, Stripe.postings, hsl, Ne.symm hsl]

end Stripe

namespace StripedSlots

/-! ## The stripes held -/

/-- What `eraseReps` leaves of an ascending list after `first`, in front of what it has kept. -/
theorem eraseReps_loop {first : Nat} {rest : List Nat} (h : (first :: rest).Pairwise (· ≤ ·)) (acc : List Nat) :
    ∃ kept, List.eraseRepsBy.loop (· == ·) first rest acc = acc.reverse ++ first :: kept ∧
      kept.Pairwise (· < ·) ∧ (∀ n ∈ kept, first < n) ∧ ∀ n, n ∈ first :: kept ↔ n ∈ first :: rest := by
  induction rest generalizing first acc with
  | nil => exact ⟨[], by simp [List.eraseRepsBy.loop], .nil, by simp, by simp⟩
  | cons next rest ih =>
    have hle : first ≤ next := List.rel_of_pairwise_cons h (by simp)
    have htail := (List.pairwise_cons.1 h).2
    by_cases heq : first = next
    · subst heq
      obtain ⟨kept, hl, hp, hlt, hmem⟩ := ih htail acc
      refine ⟨kept, by simpa [List.eraseRepsBy.loop] using hl, hp, hlt, ?_⟩
      intro n
      rw [hmem n]; simp
    · obtain ⟨kept, hl, hp, hlt, hmem⟩ := ih htail (first :: acc)
      have hfn : first < next := by omega
      have hbeq : (first == next) = false := by simpa using heq
      refine ⟨next :: kept, by simpa [List.eraseRepsBy.loop, hbeq] using hl,
        List.pairwise_cons.2 ⟨hlt, hp⟩, ?_, ?_⟩
      · intro n hn
        rcases List.mem_cons.1 hn with rfl | hn
        · exact hfn
        · exact Nat.lt_trans hfn (hlt n hn)
      · intro n
        rw [List.mem_cons, hmem n, ← List.mem_cons]

theorem eraseReps_spec {l : List Nat} (h : l.Pairwise (· ≤ ·)) :
    l.eraseReps.Pairwise (· < ·) ∧ ∀ n, n ∈ l.eraseReps ↔ n ∈ l := by
  cases l with
  | nil => exact ⟨.nil, by simp [List.eraseReps, List.eraseRepsBy]⟩
  | cons first rest =>
    obtain ⟨kept, hl, hp, hlt, hmem⟩ := eraseReps_loop h []
    have he : (first :: rest).eraseReps = first :: kept := hl
    rw [he]
    exact ⟨List.pairwise_cons.2 ⟨hlt, hp⟩, hmem⟩

theorem mergeSort_ascending (l : List Nat) : l.mergeSort.Pairwise (· ≤ ·) := by
  have htrans : ∀ a b c : Nat, decide (a ≤ b) = true → decide (b ≤ c) = true → decide (a ≤ c) = true :=
    fun a b c => by simpa using Nat.le_trans
  have htotal : ∀ a b : Nat, (decide (a ≤ b) || decide (b ≤ a)) = true :=
    fun a b => by simpa using Nat.le_total a b
  simpa using List.pairwise_mergeSort htrans htotal l

/-- The stripes held ascend, each once. -/
theorem held_ascending (s : StripedSlots) (slots : List Slot) : (s.held slots).Pairwise (· < ·) :=
  (eraseReps_spec (mergeSort_ascending _)).1

/-- The stripes held are those of the slots. -/
theorem mem_held {s : StripedSlots} {slots : List Slot} {n : Nat} :
    n ∈ s.held slots ↔ ∃ slot ∈ slots, s.stripeOf slot = n := by
  rw [held, (eraseReps_spec (mergeSort_ascending _)).2, List.mem_mergeSort, List.mem_map]

/-- Halving finds every member of an ascending list. -/
theorem place?_spec {target : Nat} {l : List Nat} (hl : l.Pairwise (· < ·)) (hm : target ∈ l) :
    ∃ i, place? target l = some i ∧ l[i]? = some target := by
  fun_induction place? target l with
  | case1 l middle hnone =>
    have := List.length_pos_of_mem hm
    rw [List.getElem?_eq_none_iff] at hnone
    omega
  | case2 l middle hsome => exact ⟨_, rfl, hsome⟩
  | case3 l middle found hsome _ hne hlt ih =>
    have hdrop : target ∉ l.drop middle := by
      intro hd
      obtain ⟨i, hi, he⟩ := List.getElem_of_mem hd
      obtain ⟨hmid, hfound⟩ := List.getElem?_eq_some_iff.1 hsome
      rw [List.getElem_drop] at he
      rcases Nat.eq_zero_or_pos i with rfl | hpos
      · exact hne (by rw [← hfound, ← he]; rfl)
      · have := List.pairwise_iff_getElem.1 hl middle (middle + i) hmid (by simp at hi; omega) (by omega)
        omega
    have hmem : target ∈ l.take middle := by
      rw [← List.take_append_drop middle l] at hm
      exact (List.mem_append.1 hm).resolve_right hdrop
    obtain ⟨i, hp, hi⟩ := ih (hl.sublist (List.take_sublist _ _)) hmem
    refine ⟨i, hp, ?_⟩
    rw [List.getElem?_take] at hi
    split at hi
    · exact hi
    · cases hi
  | case4 l middle found hsome _ hne hge ih =>
    have htake : target ∉ l.take (middle + 1) := by
      intro ht
      obtain ⟨i, hi, he⟩ := List.getElem_of_mem ht
      obtain ⟨hmid, hfound⟩ := List.getElem?_eq_some_iff.1 hsome
      rw [List.getElem_take] at he
      rcases Nat.lt_or_eq_of_le (show i ≤ middle by simp at hi; omega) with hlt | rfl
      · have := List.pairwise_iff_getElem.1 hl i middle (by omega) hmid hlt
        omega
      · exact hne (by rw [← hfound, ← he])
    have hmem : target ∈ l.drop (middle + 1) := by
      rw [← List.take_append_drop (middle + 1) l] at hm
      exact (List.mem_append.1 hm).resolve_left htake
    obtain ⟨i, hp, hi⟩ := ih (hl.sublist (List.drop_sublist _ _)) hmem
    refine ⟨i + (middle + 1), by simp [hp], ?_⟩
    rw [List.getElem?_drop] at hi
    rw [Nat.add_comm]
    exact hi

/-- A change to a slot whose stripe is held is a change to that stripe. -/
theorem change_eq {s : StripedSlots} {locked : List Nat} (hl : locked.Pairwise (· < ·)) {slot : Slot}
    (hm : s.stripeOf slot ∈ locked) (f : Stripe → Stripe) :
    s.change locked slot f = { s with stripes := s.stripes.modify (s.stripeOf slot) f } := by
  obtain ⟨i, hp, hi⟩ := place?_spec hl hm
  simp [change, hp, hi]

/-! ## Occurrences -/

/-- How often an entry key is mapped to a slot. -/
def occurrences (s : StripedSlots) (slot : Slot) (key : Key) : Nat :=
  (s.stripeAt (s.stripeOf slot)).occurrences slot key

structure WF (s : StripedSlots) : Prop where
  /-- There is a stripe for defined slots beside the last one. -/
  room : 2 ≤ s.stripes.length
  stripe : ∀ stripe ∈ s.stripes, stripe.WF
  placed : ∀ i stripe, s.stripes[i]? = some stripe → ∀ e ∈ stripe.slots, s.stripeOf e.1 = i

theorem wf_empty (hasher : Hasher) (stripes : Nat) : (empty hasher stripes).WF where
  room := by
    have := Nat.le_max_right stripes 1
    simp only [empty, List.length_replicate]
    omega
  stripe stripe hm := by
    rw [(List.mem_replicate.1 hm).2]
    exact Stripe.wf_empty
  placed i stripe hi e he := by
    have := List.mem_of_getElem? hi
    rw [(List.mem_replicate.1 this).2] at he
    simp [Stripe.empty] at he

theorem occurrences_of_blank {s : StripedSlots} (h : ∀ stripe ∈ s.stripes, stripe = .empty) (slot : Slot)
    (key : Key) : s.occurrences slot key = 0 := by
  rw [occurrences, stripeAt]
  cases hi : s.stripes[s.stripeOf slot]? with
  | none => rfl
  | some stripe => rw [h stripe (List.mem_of_getElem? hi)]; rfl

@[simp] theorem occurrences_empty (hasher : Hasher) (stripes : Nat) (slot : Slot) (key : Key) :
    (empty hasher stripes).occurrences slot key = 0 :=
  occurrences_of_blank (fun _ hm => (List.mem_replicate.1 hm).2) slot key

theorem WF.cleared {s : StripedSlots} (h : s.WF) : s.cleared.WF where
  room := by simpa [StripedSlots.cleared] using h.room
  stripe stripe hm := by
    obtain ⟨_, _, rfl⟩ := List.mem_map.1 hm
    exact Stripe.wf_empty
  placed i stripe hi e he := by
    obtain ⟨_, _, rfl⟩ := List.mem_map.1 (List.mem_of_getElem? hi)
    simp [Stripe.empty] at he

theorem stripeOf_lt {s : StripedSlots} (h : s.WF) (slot : Slot) : s.stripeOf slot < s.stripes.length := by
  have := h.room
  cases slot with
  | defined v =>
    have := Nat.mod_lt (s.hasher.key v).toNat (show s.stripes.length - 1 > 0 by omega)
    simp only [stripeOf]; omega
  | undefined => simp only [stripeOf]; omega

theorem stripeAt_mem {s : StripedSlots} (h : s.WF) (slot : Slot) :
    s.stripes[s.stripeOf slot]? = some (s.stripeAt (s.stripeOf slot)) := by
  rw [stripeAt, List.getElem?_eq_getElem (stripeOf_lt h slot), Option.getD_some]

theorem stripeAt_wf {s : StripedSlots} (h : s.WF) (slot : Slot) : (s.stripeAt (s.stripeOf slot)).WF :=
  h.stripe _ (List.mem_of_getElem? (stripeAt_mem h slot))

/-- Where one slot of a store changes, in its own stripe, the others do not. -/
theorem modify_spec {s : StripedSlots} (h : s.WF) {slot : Slot} {f : Stripe → Stripe}
    {change : Key → Nat → Nat} (hf : ∀ stripe : Stripe, stripe.WF → stripe.Changed (f stripe) slot change) :
    let s' : StripedSlots := { s with stripes := s.stripes.modify (s.stripeOf slot) f }
    s'.WF ∧ ∀ sl key, s'.occurrences sl key =
      if sl = slot then change key (s.occurrences sl key) else s.occurrences sl key := by
  intro s'
  have hlen : s'.stripes.length = s.stripes.length := List.length_modify _ _ _
  have hof : ∀ sl, s'.stripeOf sl = s.stripeOf sl := fun sl => by cases sl <;> simp [stripeOf, s']
  have hat : ∀ i : Nat, s'.stripes[i]? =
      if s.stripeOf slot = i then s.stripes[i]?.map f else s.stripes[i]? := by
    intro i
    simp only [s', List.getElem?_modify]
    split <;> simp
  refine ⟨⟨by rw [hlen]; exact h.room, fun stripe hm => ?_, fun i stripe hi e he => ?_⟩, fun sl key => ?_⟩
  · obtain ⟨i, hi⟩ := List.mem_iff_getElem?.1 hm
    rw [hat] at hi
    split at hi
    · obtain ⟨old, hold, rfl⟩ := Option.map_eq_some_iff.1 hi
      exact (hf old (h.stripe _ (List.mem_of_getElem? hold))).1
    · exact h.stripe _ (List.mem_of_getElem? hi)
  · rw [hof]
    rw [hat] at hi
    split at hi
    · rename_i hslot
      obtain ⟨old, hold, rfl⟩ := Option.map_eq_some_iff.1 hi
      rcases (hf old (h.stripe _ (List.mem_of_getElem? hold))).2.1 e he with heq | hkey
      · rw [heq, hslot]
      · obtain ⟨e', he', heq⟩ := List.mem_map.1 hkey
        rw [← heq]
        exact h.placed i old hold e' he'
    · exact h.placed i stripe hi e he
  · simp only [occurrences, stripeAt, hof, hat]
    by_cases hs : s.stripeOf slot = s.stripeOf sl
    · have := (hf _ (stripeAt_wf h sl)).2.2 sl key
      simpa [hs, stripeAt_mem h sl] using this
    · have hne : sl ≠ slot := fun he => hs (by rw [he])
      simp [hs, hne]

/-! ## Updates -/

@[simp] theorem stripeOf_change (s : StripedSlots) (locked : List Nat) (slot sl : Slot)
    (f : Stripe → Stripe) : (s.change locked slot f).stripeOf sl = s.stripeOf sl := by
  unfold change
  split
  · cases sl <;> simp [stripeOf]
  · rfl

/-- A well-formed store during an update that holds the stripes of its slots. Stripes keep their places, so
those held from the start stay those of the slots. -/
structure Holding (s : StripedSlots) (locked : List Nat) (slots : List Slot) : Prop where
  wf : s.WF
  ascending : locked.Pairwise (· < ·)
  held : ∀ slot ∈ slots, s.stripeOf slot ∈ locked

namespace Holding

variable {s : StripedSlots} {locked : List Nat} {slots : List Slot}

theorem of_held (h : s.WF) (slots : List Slot) : s.Holding (s.held slots) slots :=
  ⟨h, held_ascending s slots, fun slot hslot => mem_held.2 ⟨slot, hslot, rfl⟩⟩

theorem change (h : s.Holding locked slots) {slot : Slot} (hslot : slot ∈ slots) {f : Stripe → Stripe}
    {change : Key → Nat → Nat} (hf : ∀ stripe : Stripe, stripe.WF → stripe.Changed (f stripe) slot change) :
    (s.change locked slot f).Holding locked slots ∧ ∀ sl k, (s.change locked slot f).occurrences sl k =
      if sl = slot then change k (s.occurrences sl k) else s.occurrences sl k := by
  obtain ⟨hwf, hocc⟩ := modify_spec h.wf hf
  have heq := change_eq h.ascending (h.held slot hslot) f
  refine ⟨⟨by rw [heq]; exact hwf, h.ascending, fun sl hsl => by rw [stripeOf_change]; exact h.held sl hsl⟩, ?_⟩
  rw [heq]
  exact hocc

theorem remove (h : s.Holding locked slots) {slot : Slot} (hslot : slot ∈ slots) (key : Key) :
    (s.change locked slot (·.remove key slot)).Holding locked slots ∧ ∀ sl k,
      (s.change locked slot (·.remove key slot)).occurrences sl k =
        s.occurrences sl k - if sl = slot ∧ k = key then 1 else 0 := by
  obtain ⟨hholding, hocc⟩ := h.change hslot fun stripe hst => Stripe.remove_spec hst key slot
  refine ⟨hholding, fun sl k => ?_⟩
  rw [hocc]
  by_cases hsl : sl = slot <;> simp [hsl]

theorem add (h : s.Holding locked slots) {slot : Slot} (hslot : slot ∈ slots) (key : Key) :
    (s.change locked slot (·.add key slot)).Holding locked slots ∧ ∀ sl k,
      (s.change locked slot (·.add key slot)).occurrences sl k =
        s.occurrences sl k + if sl = slot ∧ k = key then 1 else 0 := by
  obtain ⟨hholding, hocc⟩ := h.change hslot fun stripe hst => Stripe.add_spec hst key slot
  refine ⟨hholding, fun sl k => ?_⟩
  rw [hocc]
  by_cases hsl : sl = slot <;> simp [hsl]

/-- Mappings taken out one by one. -/
theorem removeAll (h : s.Holding locked slots) {old : List Slot} (hold : ∀ slot ∈ old, slot ∈ slots) (key : Key) :
    (old.foldl (fun s slot => s.change locked slot (·.remove key slot)) s).Holding locked slots ∧ ∀ sl k,
      (old.foldl (fun s slot => s.change locked slot (·.remove key slot)) s).occurrences sl k =
        s.occurrences sl k - if k = key then old.count sl else 0 := by
  have removed : ∀ slot ∈ old, ∀ t : StripedSlots, t.Holding locked slots →
      (t.change locked slot (·.remove key slot)).Holding locked slots ∧ ∀ sl k,
        (t.change locked slot (·.remove key slot)).occurrences sl k =
          t.occurrences sl k - if sl = slot ∧ k = key then 1 else 0 :=
    fun slot hslot t ht => ht.remove (hold slot hslot) key
  exact foldl_removed removed h

end Holding

/-- **An update keeps the store well formed and exchanges the mappings of its key.** The stripe of every
slot is held, so no slot is passed over. -/
theorem update_spec {s : StripedSlots} (h : s.WF) (key : Key) (old new : List Slot) :
    (s.update key old new).WF ∧ ∀ slot k, (s.update key old new).occurrences slot k =
      s.occurrences slot k - (if k = key then old.count slot else 0) +
        if k = key then new.count slot else 0 := by
  have added : ∀ slot ∈ new, ∀ t : StripedSlots, t.Holding (s.held (old ++ new)) (old ++ new) →
      (t.change (s.held (old ++ new)) slot (·.add key slot)).Holding (s.held (old ++ new)) (old ++ new) ∧
        ∀ sl k, (t.change (s.held (old ++ new)) slot (·.add key slot)).occurrences sl k =
          t.occurrences sl k + if sl = slot ∧ k = key then 1 else 0 :=
    fun slot hslot t ht => ht.add (List.mem_append_right _ hslot) key
  obtain ⟨hholding, hocc⟩ := (Holding.of_held h (old ++ new)).removeAll
    (fun slot hslot => List.mem_append_left new hslot) key
  obtain ⟨hholding', hocc'⟩ := foldl_added added hholding
  exact ⟨hholding'.wf, fun slot k => by rw [update, hocc', hocc]⟩

/-! ## Look-ups -/

theorem contains_iff {s : StripedSlots} (h : s.WF) {slot : Slot} {key : Key} :
    s.contains slot key = true ↔ 0 < s.occurrences slot key :=
  Postings.contains_iff (Stripe.postings_wf (stripeAt_wf h slot) slot)

/-- A key occurs under a slot exactly when it is among postings of that slot in some stripe. -/
theorem occurrences_pos_iff {s : StripedSlots} (h : s.WF) {slot : Slot} {key : Key} :
    0 < s.occurrences slot key ↔ ∃ stripe ∈ s.stripes, ∃ p, (slot, p) ∈ stripe.slots ∧ key ∈ p.keys := by
  rw [occurrences, Stripe.occurrences_pos_iff (stripeAt_wf h slot)]
  constructor
  · rintro ⟨p, hm, hk⟩
    exact ⟨_, List.mem_of_getElem? (stripeAt_mem h slot), p, hm, hk⟩
  · rintro ⟨stripe, hst, p, hm, hk⟩
    obtain ⟨i, hi⟩ := List.mem_iff_getElem?.1 hst
    have hplace := h.placed i stripe hi _ hm
    simp only at hplace
    refine ⟨p, ?_, hk⟩
    have := stripeAt_mem h slot
    rw [hplace, hi] at this
    rw [hplace, ← Option.some.inj this]
    exact hm

/-- **A look-up that is no comparison of order finds each key with a slot that satisfies it once.** -/
theorem lookup_spec {s : StripedSlots} (h : s.WF) {op : Comparison} (ho : op.isInequality = false)
    (probe : Option Key) :
    (s.lookup op probe).keys.Nodup ∧ ∀ key, key ∈ (s.lookup op probe).keys ↔
      ∃ slot, 0 < s.occurrences slot key ∧ op.holds slot.key? probe = true := by
  refine ⟨Lookup.collect_nodup _ _, ?_⟩
  intro key
  have under : ∀ slot : Slot, key ∈ ((s.stripeAt (s.stripeOf slot)).postings slot).keys ↔
      0 < s.occurrences slot key := fun slot =>
    (Postings.count_pos_iff (Stripe.postings_wf (stripeAt_wf h slot) slot)).symm
  rw [lookup, Lookup.mem_collect]
  cases op <;> first | exact absurd ho (by decide) | skip
  case eq =>
    cases probe with
    | none => simp [matching, Comparison.holds]
    | some p =>
      simp only [matching, List.map_cons, List.map_nil, List.mem_singleton, exists_eq_left, under,
        Comparison.holds_eq]
      constructor
      · intro hpos
        exact ⟨.defined p, hpos, rfl, by simp⟩
      · rintro ⟨slot, hpos, hslot, -⟩
        cases slot with
        | defined v => rwa [← Option.some.inj hslot]
        | undefined => cases hslot
  case ne =>
    constructor
    · rintro ⟨keys, hkeys, hkey⟩
      obtain ⟨p, hp, rfl⟩ := List.mem_map.1 hkeys
      obtain ⟨stripe, hst, hp⟩ := List.mem_flatMap.1 hp
      obtain ⟨⟨slot, q⟩, hq, rfl⟩ := List.mem_map.1 hp
      obtain ⟨hm, hholds⟩ := List.mem_filter.1 hq
      exact ⟨slot, (occurrences_pos_iff h).2 ⟨stripe, hst, q, hm, hkey⟩, hholds⟩
    · rintro ⟨slot, hpos, hholds⟩
      obtain ⟨stripe, hst, p, hm, hkey⟩ := (occurrences_pos_iff h).1 hpos
      exact ⟨p.keys, List.mem_map.2 ⟨p, List.mem_flatMap.2 ⟨stripe, hst,
        List.mem_map.2 ⟨(slot, p), List.mem_filter.2 ⟨hm, hholds⟩, rfl⟩⟩, rfl⟩, hkey⟩
  case isUndefined =>
    simp only [matching, List.map_cons, List.map_nil, List.mem_singleton, exists_eq_left, under,
      Comparison.holds_isUndefined]
    constructor
    · intro hpos
      exact ⟨.undefined, hpos, rfl⟩
    · rintro ⟨slot, hpos, hslot⟩
      cases slot with
      | defined v => cases hslot
      | undefined => exact hpos

end StripedSlots

end IndexedStore
