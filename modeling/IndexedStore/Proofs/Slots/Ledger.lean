import IndexedStore.Proofs.Slots.Ascending
import Mathlib.Data.List.Count

/-!
# Stores after any exchanges

What stands in a slot store of any kind, after any exchanges of the mappings of entry keys, is a list of
pairs of a slot and an entry key: an exchange takes out the old pairs of its key, each once and where it is
there, and puts in the new ones (`Exchange.after`). Under a primary key, new slots one of which is another
key's stay out. The store follows the list exchange by exchange (`SlotStore.follows_exchangeAll`), so the
list says what each look-up finds (`SlotStore.lookup_answers`, `SlotStore.lookupRange_answers`); from the
ordered store the entry keys come in the order of their least slots that the look-up admits.
-/

namespace IndexedStore

/-- An exchange of the mappings of an entry key. -/
structure Exchange where
  key : Key
  old : List Slot
  new : List Slot
deriving Repr

namespace Exchange

/-- One of the new slots is another key's. -/
def contested (e : Exchange) (mapped : List (Slot × Key)) : Prop :=
  ∃ m ∈ mapped, m.2 ≠ e.key ∧ m.1 ≠ .undefined ∧ m.1 ∈ e.new

instance (e : Exchange) (mapped : List (Slot × Key)) : Decidable (e.contested mapped) :=
  inferInstanceAs (Decidable (∃ m ∈ mapped, _))

/-- The pairs that stand in a store of a kind after an exchange. -/
def after (kind : IndexKind) (mapped : List (Slot × Key)) (e : Exchange) : List (Slot × Key) :=
  let left := mapped.diff (e.old.map (·, e.key))
  if kind = .primaryKey ∧ e.contested mapped then left else left ++ e.new.map (·, e.key)

/-- The pairs that stand in a store of a kind after exchanges, of which there were none to begin with. -/
def mapped (kind : IndexKind) (exchanges : List Exchange) : List (Slot × Key) :=
  exchanges.foldl (after kind) []

theorem mem_after {kind : IndexKind} {mapped : List (Slot × Key)} {e : Exchange} {m : Slot × Key}
    (h : m ∈ e.after kind mapped) : m ∈ mapped ∨ m.1 ∈ e.new := by
  have hleft : m ∈ mapped.diff (e.old.map (·, e.key)) → m ∈ mapped := fun h => List.diff_subset _ _ h
  unfold after at h
  split at h
  · exact .inl (hleft h)
  · rcases List.mem_append.1 h with h | h
    · exact .inl (hleft h)
    · obtain ⟨slot, hslot, rfl⟩ := List.mem_map.1 h
      exact .inr hslot

/-- Every slot that stands in a store was put there. -/
theorem mem_foldl_after {kind : IndexKind} {exchanges : List Exchange} {mapped : List (Slot × Key)} {m : Slot × Key}
    (h : m ∈ exchanges.foldl (after kind) mapped) : m ∈ mapped ∨ ∃ e ∈ exchanges, m.1 ∈ e.new := by
  induction exchanges generalizing mapped with
  | nil => exact .inl h
  | cons e rest ih =>
    rcases ih h with h | ⟨e', he', hm⟩
    · exact (mem_after h).imp_right fun hm => ⟨e, List.mem_cons_self, hm⟩
    · exact .inr ⟨e', List.mem_cons_of_mem _ he', hm⟩

theorem count_pairs (slots : List Slot) (key : Key) (slot : Slot) (k : Key) :
    (slots.map (·, key)).count (slot, k) = if k = key then slots.count slot else 0 := by
  induction slots with
  | nil => simp
  | cons sl slots ih =>
    simp only [List.map_cons, List.count_cons, ih, beq_iff_eq, Prod.mk.injEq]
    by_cases hk : k = key
    · simp [hk]
    · simp [hk, Ne.symm hk]

end Exchange

/-- The least of the slots of an entry key that a condition admits. -/
def leastSlot (mapped : List (Slot × Key)) (admits : Key → Bool) (key : Key) : Option Key :=
  (mapped.filterMap fun m => if m.2 = key then m.1.key?.filter admits else none).min?

theorem leastSlot_eq_some_iff {mapped : List (Slot × Key)} {admits : Key → Bool} {key v : Key} :
    leastSlot mapped admits key = some v ↔ ((.defined v, key) ∈ mapped ∧ admits v = true) ∧
      ∀ w, (.defined w, key) ∈ mapped → admits w = true → v ≤ w := by
  have hmem : ∀ w, w ∈ (mapped.filterMap fun m => if m.2 = key then m.1.key?.filter admits else none) ↔
      (.defined w, key) ∈ mapped ∧ admits w = true := by
    intro w
    rw [List.mem_filterMap]
    constructor
    · rintro ⟨⟨slot, k⟩, hm, hw⟩
      obtain ⟨rfl, hfilter⟩ := Option.ite_none_right_eq_some.1 hw
      obtain ⟨hkey, hadmits⟩ := Option.filter_eq_some_iff.1 hfilter
      cases slot with
      | defined u => cases hkey; exact ⟨hm, hadmits⟩
      | undefined => cases hkey
    · rintro ⟨hm, hw⟩
      exact ⟨_, hm, by simp [hw]⟩
  rw [leastSlot, List.min?_eq_some_iff, hmem]
  simp only [hmem, and_imp]

namespace SlotStore

/-- The store after an exchange, which it may have refused. -/
def exchange (s : SlotStore) (e : Exchange) : SlotStore := (s.update e.key e.old e.new).2

def exchangeAll (s : SlotStore) (exchanges : List Exchange) : SlotStore := exchanges.foldl exchange s

/-- Exactly the given pairs stand in the store. -/
structure Follows (s : SlotStore) (mapped : List (Slot × Key)) : Prop where
  wf : s.WF
  count : ∀ slot key, s.occurrences slot key = mapped.count (slot, key)

variable {s : SlotStore} {mapped : List (Slot × Key)}

theorem Follows.occurs_iff (h : s.Follows mapped) {slot : Slot} {key : Key} :
    0 < s.occurrences slot key ↔ (slot, key) ∈ mapped := by
  rw [h.count, List.count_pos_iff]

/-- **The store follows the pairs through an exchange.** -/
theorem Follows.exchange (h : s.Follows mapped) (e : Exchange) :
    (s.exchange e).Follows (e.after s.kind mapped) := by
  have hu := update_spec h.wf e.key e.old e.new
  have hrefused := update_refused_iff h.wf e.key e.old e.new
  have hcontested : e.contested mapped ↔
      ∃ v k, .defined v ∈ e.new ∧ k ≠ e.key ∧ 0 < s.occurrences (.defined v) k := by
    simp only [h.occurs_iff]
    constructor
    · rintro ⟨⟨slot, k⟩, hm, hne, hdef, hnew⟩
      cases slot with
      | defined v => exact ⟨v, k, hnew, hne, hm⟩
      | undefined => exact absurd rfl hdef
    · rintro ⟨v, k, hnew, hne, hm⟩
      exact ⟨_, hm, hne, by simp, hnew⟩
  rw [← hcontested] at hrefused
  unfold SlotStore.exchange Exchange.after
  generalize s.update e.key e.old e.new = outcome at hu hrefused
  obtain ⟨_ | violation, s'⟩ := outcome
  · obtain ⟨hwf, hocc⟩ := hu
    refine ⟨hwf, fun slot key => ?_⟩
    rw [if_neg (hrefused.not.1 (by simp)), hocc, List.count_append, List.count_diff, Exchange.count_pairs,
      Exchange.count_pairs, h.count]
  · obtain ⟨hwf, hocc, -⟩ := hu
    refine ⟨hwf, fun slot key => ?_⟩
    rw [if_pos (hrefused.1 (by simp)), hocc, List.count_diff, Exchange.count_pairs, h.count]

@[simp] theorem kind_exchange (s : SlotStore) (e : Exchange) : (s.exchange e).kind = s.kind := kind_update ..

@[simp] theorem kind_exchangeAll (s : SlotStore) (exchanges : List Exchange) :
    (s.exchangeAll exchanges).kind = s.kind := by
  induction exchanges generalizing s with
  | nil => rfl
  | cons e rest ih => exact (ih _).trans (kind_exchange s e)

theorem Follows.exchangeAll (h : s.Follows mapped) (exchanges : List Exchange) :
    (s.exchangeAll exchanges).Follows (exchanges.foldl (Exchange.after s.kind) mapped) := by
  induction exchanges generalizing s mapped with
  | nil => exact h
  | cons e rest ih =>
    have hrest := ih (h.exchange e)
    rw [kind_exchange] at hrest
    exact hrest

theorem follows_empty (kind : IndexKind) (name : String) (hasher : Hasher) (stripes : Nat) :
    (empty kind name hasher stripes).Follows [] :=
  ⟨wf_empty .., fun _ _ => occurrences_empty ..⟩

/-- The pairs of a store that began empty, after any exchanges. -/
theorem follows_mapped (kind : IndexKind) (name : String) (hasher : Hasher) (stripes : Nat)
    (exchanges : List Exchange) :
    ((empty kind name hasher stripes).exchangeAll exchanges).Follows (Exchange.mapped kind exchanges) := by
  have h := (follows_empty kind name hasher stripes).exchangeAll exchanges
  rw [kind_empty] at h
  exact h

/-- The defined slots of a store are the keys of values, if those of the exchanges are. -/
theorem Follows.grounded {kind : IndexKind} {exchanges : List Exchange}
    (h : s.Follows (Exchange.mapped kind exchanges))
    (hg : ∀ e ∈ exchanges, ∀ v, .defined v ∈ e.new → v.Grounded) (v key : Key)
    (hpos : 0 < s.occurrences (.defined v) key) : v.Grounded := by
  rcases Exchange.mem_foldl_after (h.occurs_iff.1 hpos) with hm | ⟨e, he, hm⟩
  · cases hm
  · exact hg e he v hm

/-- The entry keys that an ordered store gives for a condition, in the order of their least slots. -/
theorem Follows.admitted {slots : OrderedSlots} (h : (SlotStore.ordered slots).Follows mapped)
    (admits : Key → Bool) :
    (∀ key, key ∈ (slots.admitted admits).keys ↔ ∃ v, (.defined v, key) ∈ mapped ∧ admits v = true) ∧
      ((slots.admitted admits).keys.filterMap (leastSlot mapped admits)).Pairwise (· ≤ ·) := by
  have hwf : slots.WF := h.wf
  have hocc : ∀ {slot key}, 0 < slots.occurrences slot key ↔ (slot, key) ∈ mapped := h.occurs_iff
  refine ⟨fun key => by simp only [OrderedSlots.mem_admitted hwf, hocc], ?_⟩
  refine (OrderedSlots.admitted_ascends hwf admits).filterMap _ ?_
  intro k k' hle v hv v' hv'
  obtain ⟨-, hleast⟩ := leastSlot_eq_some_iff.1 hv
  obtain ⟨⟨hm', hadmits'⟩, -⟩ := leastSlot_eq_some_iff.1 hv'
  obtain ⟨w, hwle, hw, hadmits⟩ := hle v' (hocc.2 hm') hadmits'
  exact le_trans (hleast w (hocc.1 hw) hadmits) hwle

/-- **After any exchanges a look-up answers the comparison.** With a comparison that the kind supports, a
store of any kind gives the entry keys that stand under a slot of which the comparison with the probe holds,
each once; a range index gives them in the order of their least such slots, and no search is made between
bounds that are not proper. Slots and probe are keys of values, none of which is below the floor of its class
(`Key.grounded_ofValue`, `Key.grounded_ofFloat`). -/
theorem lookup_answers (kind : IndexKind) (name : String) (hasher : Hasher) (stripes : Nat)
    (exchanges : List Exchange) (hg : ∀ e ∈ exchanges, ∀ v, .defined v ∈ e.new → v.Grounded)
    (op : Comparison) (ho : kind.supports op = true) (probe : Option Key) (hp : ∀ p ∈ probe, p.Grounded) :
    ∃ found, ((empty kind name hasher stripes).exchangeAll exchanges).lookup op probe = .ok found ∧
      found.keys.Nodup ∧
      (∀ key, key ∈ found.keys ↔
        ∃ slot, (slot, key) ∈ Exchange.mapped kind exchanges ∧ op.holds slot.key? probe = true) ∧
      (kind = .range → (found.keys.filterMap
        (leastSlot (Exchange.mapped kind exchanges) fun v => op.holds (some v) probe)).Pairwise (· ≤ ·)) ∧
      ∀ p ∈ probe, (OrderedSlots.boundsOf op p).1.proper (OrderedSlots.boundsOf op p).2 = true := by
  have hf := follows_mapped kind name hasher stripes exchanges
  have hkind : ((empty kind name hasher stripes).exchangeAll exchanges).kind = kind := by simp
  generalize (empty kind name hasher stripes).exchangeAll exchanges = store at hf hkind
  have hgrounded := hf.grounded hg
  obtain ⟨found, hfound, hnodup, hmem⟩ := lookup_spec hf.wf (hkind.symm ▸ ho) hp hgrounded
  refine ⟨found, hfound, hnodup, ?_, ?_, fun p hprobe => OrderedSlots.proper_boundsOf (hp p hprobe)⟩
  · simpa only [hf.occurs_iff] using hmem
  · intro hrange
    cases store with
    | striped | unique => exact absurd (hkind.trans hrange) (by simp [SlotStore.kind])
    | ordered slots =>
      by_cases hop : op = .isUndefined
      · -- no defined slot is undefined, so there is nothing to order by
        subst hop
        have hnone : leastSlot (Exchange.mapped kind exchanges)
            (fun v => Comparison.isUndefined.holds (some v) probe) = fun _ => none := by
          funext key
          rw [Option.eq_none_iff_forall_ne_some]
          intro v hv
          obtain ⟨⟨-, hholds⟩, -⟩ := leastSlot_eq_some_iff.1 hv
          exact absurd ((Comparison.holds_isUndefined _ _).1 hholds) (by simp)
        rw [hnone]
        simp
      · have hwf : slots.WF := hf.wf
        have heq := OrderedSlots.lookup_eq hwf hop hp (OrderedSlots.grounded_values hwf hgrounded)
        obtain rfl : _ = found := Except.ok.inj (heq.symm.trans hfound)
        exact (hf.admitted _).2

/-- Prices, of which one changes and some are texts. -/
def prices : List Exchange :=
  [⟨.int 1, [], [.defined (.int 30), .defined (.text "on request")]⟩,
    ⟨.int 2, [], [.defined (.int 20), .undefined]⟩, ⟨.int 3, [], [.defined (.text "free")]⟩,
    ⟨.int 1, [.defined (.int 30)], [.defined (.int 10)]⟩]

theorem grounded_prices : ∀ e ∈ prices, ∀ v, .defined v ∈ e.new → v.Grounded := by
  have hall : ∀ e ∈ prices, ∀ slot ∈ e.new, ∀ v ∈ slot.key?, v.Grounded := by decide +kernel
  exact fun e he v hv => hall e he _ hv v rfl

theorem lookup_answers_prices : ∃ found,
    ((empty .range "price" default 4).exchangeAll prices).lookup .le (some (.int 20)) = .ok found ∧
      found.keys = [.int 1, .int 2] ∧
      (found.keys.filterMap (leastSlot (Exchange.mapped .range prices) fun v =>
        Comparison.le.holds (some v) (some (.int 20)))).Pairwise (· ≤ ·) := by
  obtain ⟨found, hfound, -, -, hordered, -⟩ := lookup_answers .range "price" default 4 prices grounded_prices
    .le rfl (some (.int 20)) (by rintro p ⟨⟩; exact Key.grounded_int 20)
  have hkeys : (((empty .range "price" default 4).exchangeAll prices).lookup .le (some (.int 20))).toOption.map
      (·.keys) = some [.int 1, .int 2] := by decide +kernel
  rw [hfound] at hkeys
  exact ⟨found, hfound, Option.some.inj hkeys, hordered rfl⟩

/-- **After any exchanges a look-up between two bounds finds the entry keys with a slot between them.** The
ordered store gives each of them once and in the order of their least such slots, whichever of the bounds are
there and however they lie to each other; the search is made between proper bounds, and only if some slot can
satisfy them. -/
theorem lookupRange_answers (name : String) (hasher : Hasher) (stripes : Nat) (exchanges : List Exchange)
    (hg : ∀ e ∈ exchanges, ∀ v, .defined v ∈ e.new → v.Grounded) (lower upper : KeyBound)
    (hl : ∀ k ∈ lower.key?, k.Grounded) (hu : ∀ k ∈ upper.key?, k.Grounded) :
    ∃ found, ((empty .range name hasher stripes).exchangeAll exchanges).lookupRange? lower upper =
        some (.ok found) ∧
      found.keys.Nodup ∧
      (∀ key, key ∈ found.keys ↔
        ∃ v, (.defined v, key) ∈ Exchange.mapped .range exchanges ∧ KeyBound.Between lower upper v) ∧
      (found.keys.filterMap (leastSlot (Exchange.mapped .range exchanges) fun v =>
        KeyBound.Between lower upper v)).Pairwise (· ≤ ·) ∧
      (lower.disjoint upper = false →
        (OrderedSlots.rangeBounds lower upper).1.proper (OrderedSlots.rangeBounds lower upper).2 = true) := by
  have hf := follows_mapped .range name hasher stripes exchanges
  have hkind : ((empty .range name hasher stripes).exchangeAll exchanges).kind = .range := by simp
  generalize (empty .range name hasher stripes).exchangeAll exchanges = store at hf hkind
  cases store with
  | striped | unique => cases hkind
  | ordered slots =>
    have hwf : slots.WF := hf.wf
    have heq := OrderedSlots.lookupRange_eq hwf hl hu (OrderedSlots.grounded_values hwf (hf.grounded hg))
    obtain ⟨hmem, hordered⟩ := hf.admitted fun v => KeyBound.Between lower upper v
    refine ⟨_, congrArg some heq, Lookup.collect_nodup _ _, ?_, hordered,
      OrderedSlots.proper_rangeBounds hl hu⟩
    simpa only [decide_eq_true_eq] using hmem

theorem lookupRange_answers_prices : ∃ found,
    ((empty .range "price" default 4).exchangeAll prices).lookupRange? .unbounded (.excluded (.int 20)) =
        some (.ok found) ∧
      found.keys = [.int 1] ∧ ¬∃ v, (.defined v, .int 3) ∈ Exchange.mapped .range prices ∧
        KeyBound.Between .unbounded (.excluded (.int 20)) v := by
  obtain ⟨found, hfound, -, hmem, -⟩ := lookupRange_answers "price" default 4 prices grounded_prices .unbounded
    (.excluded (.int 20)) (by simp [KeyBound.key?]) (by rintro k ⟨⟩; exact Key.grounded_int 20)
  have hkeys : (((empty .range "price" default 4).exchangeAll prices).lookupRange? .unbounded
      (.excluded (.int 20))).map (·.toOption.map (·.keys)) = some (some [.int 1]) := by decide +kernel
  rw [hfound] at hkeys
  obtain hkeys : found.keys = [.int 1] := Option.some.inj (Option.some.inj hkeys)
  exact ⟨found, hfound, hkeys, (hmem _).not.1 (by simp [hkeys])⟩

end SlotStore

end IndexedStore
