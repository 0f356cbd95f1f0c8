import IndexedStore.Proofs.Slots.Store
import Mathlib.Data.Finset.Card
import Mathlib.Data.List.Perm.Basic

/-!
# What slot stores count

Every store is a table of slots with their postings (`Lists`), spread over its parts in one way or another.
Written out as pairs of a slot and an entry key, each pair as often as it occurs, the table has as many pairs
as the store counts mappings, and as many different slots as the store counts slots. The pairs are determined
up to order by the occurrences, so any list of pairs with the same multiplicities gives the counts
(`SlotStore.counts_eq`).
-/

namespace IndexedStore

/-! ## Writing out -/

namespace Postings

/-- The entry keys, each as often as it stands here. -/
def spread (p : Postings) : List Key := p.counts.flatMap fun e => List.replicate e.2 e.1

theorem count_spread {p : Postings} (h : p.WF) (key : Key) : p.spread.count key = p.count key := by
  have hu := h.unique
  unfold spread count
  generalize p.counts = counts at hu
  induction counts with
  | nil => rfl
  | cons e rest ih =>
    obtain ⟨k, n⟩ := e
    obtain ⟨hk, hrest⟩ := Table.unique_cons.1 hu
    rw [List.flatMap_cons, List.count_append, ih hrest, List.count_replicate]
    by_cases he : k = key
    · subst he
      rw [Table.find?_eq_none_iff.2 hk]
      simp [Table.find?]
    · simp [Table.find?, he]

theorem length_spread {p : Postings} (h : p.WF) : p.spread.length = p.total := by
  rw [h.total, spread]
  induction p.counts with
  | nil => rfl
  | cons e rest ih => rw [List.flatMap_cons, List.length_append, ih, List.length_replicate, sumOf]

theorem spread_ne_nil {p : Postings} (h : p.WF) (hne : p.isEmpty = false) : p.spread ≠ [] := by
  intro hnil
  refine absurd ((isEmpty_iff h).2 fun key => ?_) (by simp [hne])
  rw [← count_spread h, hnil, List.count_nil]

end Postings

/-- A table of slots written out: a slot and an entry key, as often as the key stands under the slot. -/
def pairsOf (t : Table Slot Postings) : List (Slot × Key) := t.flatMap fun e => e.2.spread.map (e.1, ·)

section Pairs

variable {t : Table Slot Postings} (hpostings : ∀ e ∈ t, e.2.WF ∧ e.2.isEmpty = false)

include hpostings

theorem count_pairsOf (hunique : Table.Unique t) (slot : Slot) (key : Key) :
    (pairsOf t).count (slot, key) = ((Table.find? slot t).getD .empty).count key := by
  induction t with
  | nil => rfl
  | cons e rest ih =>
    obtain ⟨s, p⟩ := e
    obtain ⟨hs, hrest⟩ := Table.unique_cons.1 hunique
    have hp := hpostings (s, p) (by simp)
    have hcons : pairsOf ((s, p) :: rest) = p.spread.map (s, ·) ++ pairsOf rest := rfl
    rw [hcons, List.count_append, ih (fun e he => hpostings e (List.mem_cons_of_mem _ he)) hrest]
    by_cases he : s = slot
    · subst he
      have hinj : Function.Injective fun k : Key => (s, k) := fun _ _ h => (Prod.mk.inj h).2
      rw [Table.find?_eq_none_iff.2 hs, List.count_map_of_injective _ _ hinj, Postings.count_spread hp.1]
      simp [Table.find?]
    · have hnot : (slot, key) ∉ p.spread.map (s, ·) := by
        intro hm
        obtain ⟨_, -, hpair⟩ := List.mem_map.1 hm
        exact he (Prod.mk.inj hpair).1
      rw [List.count_eq_zero.2 hnot]
      simp [Table.find?, he]

theorem length_pairsOf : (pairsOf t).length = sumOf (·.2.total) t := by
  induction t with
  | nil => rfl
  | cons e rest ih =>
    have hcons : pairsOf (e :: rest) = e.2.spread.map (e.1, ·) ++ pairsOf rest := rfl
    rw [hcons, List.length_append, ih fun e he => hpostings e (List.mem_cons_of_mem _ he), List.length_map,
      Postings.length_spread (hpostings e (by simp)).1, sumOf]

/-- The slots that are written are those of the table. -/
theorem mem_slots_pairsOf {slot : Slot} : slot ∈ (pairsOf t).map (·.1) ↔ slot ∈ Table.keys t := by
  simp only [pairsOf, Table.keys, List.mem_map, List.mem_flatMap]
  constructor
  · rintro ⟨_, ⟨e, he, k, -, rfl⟩, rfl⟩
    exact ⟨e, he, rfl⟩
  · rintro ⟨e, he, rfl⟩
    obtain ⟨hwf, hne⟩ := hpostings e he
    obtain ⟨k, hk⟩ := List.exists_mem_of_ne_nil _ (Postings.spread_ne_nil hwf hne)
    exact ⟨_, ⟨e, he, k, hk, rfl⟩, rfl⟩

theorem slots_pairsOf (hunique : Table.Unique t) : ((pairsOf t).map (·.1)).dedup.length = t.length := by
  have hkeys : ((pairsOf t).map (·.1)).toFinset = (Table.keys t).toFinset := by
    ext slot
    simpa only [List.mem_toFinset] using mem_slots_pairsOf hpostings
  rw [← List.card_toFinset, hkeys, List.toFinset_card_of_nodup hunique, Table.keys, List.length_map]

end Pairs

/-- A table that has the occurrences of a store, by which the store counts. -/
structure Lists (occurrences : Slot → Key → Nat) (counts : Nat × Nat) (t : Table Slot Postings) : Prop where
  unique : Table.Unique t
  postings : ∀ e ∈ t, e.2.WF ∧ e.2.isEmpty = false
  occurrences : ∀ slot key, occurrences slot key = ((Table.find? slot t).getD .empty).count key
  slots : counts.1 = t.length
  mappings : counts.2 = sumOf (·.2.total) t

/-- Pairs with the multiplicities of the occurrences are those that the table writes out. -/
theorem Lists.perm {occurrences : Slot → Key → Nat} {counts : Nat × Nat} {t : Table Slot Postings}
    (h : Lists occurrences counts t) {pairs : List (Slot × Key)}
    (hp : ∀ slot key, pairs.count (slot, key) = occurrences slot key) : (pairsOf t).Perm pairs := by
  rw [List.perm_iff_count]
  rintro ⟨slot, key⟩
  rw [count_pairsOf h.postings h.unique, hp, h.occurrences]

/-- Pairs with the multiplicities of the occurrences are as many as there are mappings, of as many slots as
there are. -/
theorem Lists.counts_eq {occurrences : Slot → Key → Nat} {counts : Nat × Nat} {t : Table Slot Postings}
    (h : Lists occurrences counts t) {pairs : List (Slot × Key)}
    (hp : ∀ slot key, pairs.count (slot, key) = occurrences slot key) :
    counts = ((pairs.map (·.1)).dedup.length, pairs.length) := by
  have hperm := h.perm hp
  refine Prod.ext ?_ ?_
  · rw [h.slots, ← slots_pairsOf h.postings h.unique]
    exact ((hperm.map (·.1)).dedup).length_eq
  · rw [h.mappings, ← length_pairsOf h.postings]
    exact hperm.length_eq

/-! ## The stores as tables -/

/-- Postings under keys, as postings under the defined slots of those. -/
def definedTable (t : Table Key Postings) : Table Slot Postings := t.map fun e => (.defined e.1, e.2)

theorem keys_definedTable (t : Table Key Postings) :
    Table.keys (definedTable t) = (Table.keys t).map .defined := by
  simp [definedTable, Table.keys]

theorem find?_definedTable (v : Key) (t : Table Key Postings) :
    Table.find? (.defined v) (definedTable t) = Table.find? v t := by
  induction t with
  | nil => rfl
  | cons e rest ih =>
    rw [definedTable] at ih
    simp [definedTable, Table.find?, ih]

theorem undefined_notMem_definedTable (t : Table Key Postings) : .undefined ∉ Table.keys (definedTable t) := by
  rw [keys_definedTable]
  simp

/-- The postings of defined slots, and those of the undefined slot if there are any. -/
def slotTable (defined : Table Key Postings) (undefined : Postings) : Table Slot Postings :=
  definedTable defined ++ if undefined.isEmpty then [] else [(.undefined, undefined)]

theorem lists_slotTable {defined : Table Key Postings} {undefined : Postings} (hu : Table.Unique defined)
    (hp : ∀ e ∈ defined, e.2.WF ∧ e.2.isEmpty = false) (hundefined : undefined.WF)
    {occurrences : Slot → Key → Nat}
    (hv : ∀ v key, occurrences (.defined v) key = ((Table.find? v defined).getD .empty).count key)
    (hn : ∀ key, occurrences .undefined key = undefined.count key) :
    Lists occurrences (defined.length + (if undefined.isEmpty then 0 else 1),
      sumOf (·.2.total) defined + undefined.total) (slotTable defined undefined) := by
  have hnone := Table.find?_eq_none_iff.2 (undefined_notMem_definedTable defined)
  have hunique : Table.Unique (definedTable defined) := by
    rw [Table.Unique, keys_definedTable]
    exact List.Nodup.map (fun _ _ h => Slot.defined.inj h) hu
  have hpostings : ∀ e ∈ definedTable defined, e.2.WF ∧ e.2.isEmpty = false := by
    intro e he
    obtain ⟨e', he', rfl⟩ := List.mem_map.1 he
    exact hp e' he'
  have hsum : sumOf (·.2.total) (definedTable defined) = sumOf (·.2.total) defined := sumOf_map _ _ _
  unfold slotTable
  by_cases he : undefined.isEmpty = true
  · simp only [if_pos he, List.append_nil]
    refine ⟨hunique, hpostings, ?_, by simp [definedTable], ?_⟩
    · intro slot key
      cases slot with
      | defined v => rw [hv, find?_definedTable]
      | undefined => rw [hn, hnone, (Postings.isEmpty_iff hundefined).1 he]; rfl
    · have hzero : undefined.total = 0 := by
        rw [hundefined.total, List.isEmpty_iff.1 he]
        rfl
      rw [hsum, hzero]
      rfl
  · have hfalse : undefined.isEmpty = false := by simpa using he
    simp only [if_neg he]
    refine ⟨hunique.append (by simp [Table.Unique, Table.keys]) ?_, ?_, ?_, by simp [definedTable], ?_⟩
    · intro slot hslot hone
      rw [List.mem_singleton.1 hone] at hslot
      exact undefined_notMem_definedTable defined hslot
    · exact List.forall_mem_append.2 ⟨hpostings, by simpa using ⟨hundefined, hfalse⟩⟩
    · intro slot key
      rw [Table.find?_append]
      cases slot with
      | defined v => simp [hv, find?_definedTable, Table.find?]
      | undefined => simp [hn, hnone, Table.find?]
    · rw [sumOf_append, hsum]
      simp [sumOf]

namespace OrderedSlots

theorem lists {s : OrderedSlots} (h : s.WF) :
    Lists s.occurrences s.counts (slotTable s.values s.undefined) := by
  have hlists := @lists_slotTable s.values s.undefined h.sorted.unique h.postings h.undefined s.occurrences
    (fun _ _ => rfl) (fun _ => rfl)
  rwa [← h.total] at hlists

end OrderedSlots

namespace UniqueSlots

/-- An owner as the postings of its slot. -/
def ownerPostings (owner : Owner) : Postings := ⟨[(owner.key, owner.count)], owner.count⟩

theorem count_ownerPostings (owner : Owner) (key : Key) :
    (ownerPostings owner).count key = if owner.key = key then owner.count else 0 := by
  by_cases h : owner.key = key <;> simp [ownerPostings, Postings.count, Table.find?, h]

theorem lists {s : UniqueSlots} (h : s.WF) : Lists s.occurrences s.counts
    (slotTable (s.owners.map fun e => (e.1, ownerPostings e.2)) s.undefined) := by
  have hkeys : Table.keys (s.owners.map fun e => (e.1, ownerPostings e.2)) = Table.keys s.owners := by
    simp [Table.keys]
  have hfind : ∀ v, Table.find? v (s.owners.map fun e => (e.1, ownerPostings e.2)) =
      (Table.find? v s.owners).map ownerPostings := by
    intro v
    induction s.owners with
    | nil => rfl
    | cons e rest ih =>
      by_cases he : e.1 = v <;> simp [Table.find?, he, ih]
  have hunique : Table.Unique (s.owners.map fun e => (e.1, ownerPostings e.2)) := by
    rw [Table.Unique, hkeys]
    exact h.unique
  have hpostings : ∀ e ∈ s.owners.map fun e => (e.1, ownerPostings e.2), e.2.WF ∧ e.2.isEmpty = false := by
    intro e he
    obtain ⟨⟨v, owner⟩, ho, rfl⟩ := List.mem_map.1 he
    have hpos := h.positive _ ho
    exact ⟨⟨by simp [ownerPostings, Table.Unique, Table.keys], by simpa [ownerPostings] using hpos,
      by simp [ownerPostings, sumOf]⟩, rfl⟩
  have hdefined : ∀ v key, s.occurrences (.defined v) key = ((Table.find? v
      (s.owners.map fun e => (e.1, ownerPostings e.2))).getD .empty).count key := by
    intro v key
    rw [hfind, occurrences]
    cases Table.find? v s.owners with
    | none => rfl
    | some owner => exact (count_ownerPostings owner key).symm
  have hlists := lists_slotTable hunique hpostings h.undefined hdefined fun _ => rfl
  have htotal : (fun e : Key × Owner => (ownerPostings e.2).total) = (·.2.count) := rfl
  rwa [List.length_map, sumOf_map, htotal, ← h.total] at hlists

end UniqueSlots

namespace StripedSlots

variable {s : StripedSlots}

/-- A slot stands in its own stripe alone. -/
theorem mem_table_iff (h : s.WF) {slot : Slot} {p : Postings} :
    (slot, p) ∈ s.stripes.flatMap (·.slots) ↔ (slot, p) ∈ (s.stripeAt (s.stripeOf slot)).slots := by
  rw [List.mem_flatMap]
  constructor
  · rintro ⟨stripe, hst, hm⟩
    obtain ⟨i, hi⟩ := List.mem_iff_getElem?.1 hst
    rw [h.placed i stripe hi _ hm, stripeAt, hi]
    exact hm
  · intro hm
    exact ⟨_, List.mem_of_getElem? (stripeAt_mem h slot), hm⟩

theorem unique_table (h : s.WF) : Table.Unique (s.stripes.flatMap (·.slots)) := by
  rw [Table.Unique, Table.keys, List.map_flatMap, List.nodup_flatMap]
  refine ⟨fun stripe hst => (h.stripe stripe hst).unique, ?_⟩
  rw [List.pairwise_iff_getElem]
  intro i j hi hj hij slot hin hjn
  obtain ⟨e, he, rfl⟩ := List.mem_map.1 hin
  obtain ⟨e', he', heq⟩ := List.mem_map.1 hjn
  have hplace := h.placed i _ (List.getElem?_eq_getElem hi) e he
  have hplace' := h.placed j _ (List.getElem?_eq_getElem hj) e' he'
  rw [heq, hplace] at hplace'
  omega

theorem lists (h : s.WF) : Lists s.occurrences s.counts (s.stripes.flatMap (·.slots)) where
  unique := unique_table h
  postings e he := by
    obtain ⟨stripe, hst, he⟩ := List.mem_flatMap.1 he
    exact (h.stripe stripe hst).postings e he
  occurrences slot key := by
    have hfind : Table.find? slot (s.stripes.flatMap (·.slots)) =
        Table.find? slot (s.stripeAt (s.stripeOf slot)).slots := by
      apply Option.ext
      intro p
      rw [Table.find?_eq_some_iff (unique_table h), Table.find?_eq_some_iff (stripeAt_wf h slot).unique,
        mem_table_iff h]
    rw [hfind]
    rfl
  slots := by
    rw [List.length_flatMap, counts]
    simp only
    induction s.stripes with
    | nil => rfl
    | cons stripe rest ih => simp [sumOf, ih]
  mappings := by
    rw [counts, sumOf_flatMap]
    exact sumOf_congr fun stripe hst => (h.stripe stripe hst).total

end StripedSlots

namespace SlotStore

/-- **A store counts the pairs of a slot and an entry key that occur in it, and the slots of those.** -/
theorem counts_eq {s : SlotStore} (h : s.WF) {pairs : List (Slot × Key)}
    (hp : ∀ slot key, pairs.count (slot, key) = s.occurrences slot key) :
    s.counts = ((pairs.map (·.1)).dedup.length, pairs.length) := by
  cases s with
  | ordered slots => exact (OrderedSlots.lists h).counts_eq hp
  | striped slots => exact (StripedSlots.lists h).counts_eq hp
  | unique slots => exact (UniqueSlots.lists h).counts_eq hp

end SlotStore

end IndexedStore
