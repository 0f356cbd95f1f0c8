import IndexedStore.Proofs.Slots.Counters
import IndexedStore.Proofs.Slots.Counts
import IndexedStore.Proofs.Slots.Ledger
import Mathlib.Data.Multiset.Count

/-!
# The slots of ordered and striped stores as a multiset

Written out, an ordered store and a striped one are multisets of pairs of a slot and an entry key. After any
updates both are the one multiset from which each update took the old pairs of its key, each once and where it
was there, and to which it added the new ones (`accounted`). What the stores are asked for directly and what
they count is read off the multiset, no slot stands there without postings, and no counter leaves its bounds
(`stores_account`).
-/

namespace IndexedStore

/-- An update takes the old pairs of its key out, each once and where it is there, and adds the new ones. -/
def Exchange.account (pairs : Multiset (Slot × Key)) (e : Exchange) : Multiset (Slot × Key) :=
  pairs - ↑(e.old.map (·, e.key)) + ↑(e.new.map (·, e.key))

/-- The pairs that stand in a store after updates, none of which is refused. -/
def accounted (exchanges : List Exchange) : Multiset (Slot × Key) := exchanges.foldl Exchange.account 0

theorem accounted_eq {kind : IndexKind} (h : kind ≠ .primaryKey) (exchanges : List Exchange) :
    accounted exchanges = Exchange.mapped kind exchanges := by
  have hrun : ∀ pairs : List (Slot × Key),
      ↑(exchanges.foldl (Exchange.after kind) pairs) = exchanges.foldl Exchange.account ↑pairs := by
    induction exchanges with
    | nil => exact fun _ => rfl
    | cons e rest ih =>
      intro pairs
      have hstep : ↑(Exchange.after kind pairs e) = Exchange.account ↑pairs e := by
        simp only [Exchange.after, Exchange.account, h, false_and, if_false, Multiset.coe_sub, Multiset.coe_add]
        -- lists and multisets test pairs for equality by different instances
        convert rfl
      rw [List.foldl_cons, List.foldl_cons, ih, hstep]
  exact (hrun []).symm

theorem count_accounted {kind : IndexKind} (h : kind ≠ .primaryKey) (exchanges : List Exchange) (slot : Slot)
    (key : Key) : (accounted exchanges).count (slot, key) = (Exchange.mapped kind exchanges).count (slot, key) := by
  rw [accounted_eq h, Multiset.coe_count]
  convert rfl

/-- Guarded exchanges are the plain ones, where every multiplicity on the way stays below the limit. -/
theorem foldlM_exchanges {S : Type} {wf : S → Prop} (occurrences : S → Slot → Key → Nat) {update : S → Exchange → S}
    {guarded : S → Exchange → Option S} {limit : Nat}
    (h : ∀ s e, wf s → wf (update s e) ∧ ((∀ slot, occurrences (update s e) slot e.key < limit) →
      guarded s e = some (update s e)))
    {exchanges : List Exchange} {s : S} (hs : wf s)
    (hroom : ∀ done, done <+: exchanges → ∀ slot key, occurrences (done.foldl update s) slot key < limit) :
    exchanges.foldlM guarded s = some (exchanges.foldl update s) := by
  induction exchanges generalizing s with
  | nil => rfl
  | cons e rest ih =>
    obtain ⟨hwf, hguarded⟩ := h s e hs
    have hone : ∀ slot, occurrences (update s e) slot e.key < limit :=
      fun slot => hroom [e] (by simp) slot e.key
    rw [List.foldlM_cons, hguarded hone]
    exact ih hwf fun done hdone => hroom (e :: done) (List.cons_prefix_cons.2 ⟨rfl, hdone⟩)

namespace OrderedSlots

def exchangeAll (s : OrderedSlots) (exchanges : List Exchange) : OrderedSlots :=
  exchanges.foldl (fun s e => s.update e.key e.old e.new) s

/-- The store after exchanges, with guarded counters. -/
def exchangeAllWithin? (limit : Nat) (s : OrderedSlots) (exchanges : List Exchange) : Option OrderedSlots :=
  exchanges.foldlM (fun s e => s.updateWithin? limit e.key e.old e.new) s

/-- The pairs that stand in the store, read off the postings. -/
def contents (s : OrderedSlots) : Multiset (Slot × Key) := pairsOf (slotTable s.values s.undefined)

theorem ordered_exchangeAll (s : OrderedSlots) (exchanges : List Exchange) :
    (SlotStore.ordered s).exchangeAll exchanges = .ordered (s.exchangeAll exchanges) := by
  induction exchanges generalizing s with
  | nil => rfl
  | cons e rest ih => exact ih _

theorem follows_mapped (exchanges : List Exchange) :
    (SlotStore.ordered (empty.exchangeAll exchanges)).Follows (Exchange.mapped .range exchanges) := by
  rw [← ordered_exchangeAll]
  exact SlotStore.follows_mapped .range "" default 0 exchanges

theorem occurrences_accounted (exchanges : List Exchange) (slot : Slot) (key : Key) :
    (empty.exchangeAll exchanges).occurrences slot key = (accounted exchanges).count (slot, key) := by
  rw [count_accounted (show IndexKind.range ≠ .primaryKey by decide)]
  exact (follows_mapped exchanges).count slot key

end OrderedSlots

namespace StripedSlots

def exchangeAll (s : StripedSlots) (exchanges : List Exchange) : StripedSlots :=
  exchanges.foldl (fun s e => s.update e.key e.old e.new) s

/-- The store after exchanges, with guarded counters. -/
def exchangeAllWithin? (limit : Nat) (s : StripedSlots) (exchanges : List Exchange) : Option StripedSlots :=
  exchanges.foldlM (fun s e => s.updateWithin? limit e.key e.old e.new) s

/-- The pairs that stand in the store, read off the postings of all stripes. -/
def contents (s : StripedSlots) : Multiset (Slot × Key) := pairsOf (s.stripes.flatMap (·.slots))

theorem striped_exchangeAll (s : StripedSlots) (exchanges : List Exchange) :
    (SlotStore.striped s).exchangeAll exchanges = .striped (s.exchangeAll exchanges) := by
  induction exchanges generalizing s with
  | nil => rfl
  | cons e rest ih => exact ih _

theorem follows_mapped (hasher : Hasher) (stripes : Nat) (exchanges : List Exchange) :
    (SlotStore.striped ((empty hasher stripes).exchangeAll exchanges)).Follows (Exchange.mapped .hash exchanges) := by
  rw [← striped_exchangeAll]
  exact SlotStore.follows_mapped .hash "" hasher stripes exchanges

theorem occurrences_accounted (hasher : Hasher) (stripes : Nat) (exchanges : List Exchange) (slot : Slot) (key : Key) :
    ((empty hasher stripes).exchangeAll exchanges).occurrences slot key = (accounted exchanges).count (slot, key) := by
  rw [count_accounted (show IndexKind.hash ≠ .primaryKey by decide)]
  exact (follows_mapped hasher stripes exchanges).count slot key

end StripedSlots

/-- **Ordered and striped stores hold one multiset of pairs after any updates**, whatever the stripes and the
hasher: they contain the pairs that occur in it, count its slots and its size, and keep no slot without
postings. With multiplicities that stay below a limit no counter is lowered below zero or raised to the
limit. -/
theorem stores_account (hasher : Hasher) (stripes : Nat) (exchanges : List Exchange) :
    let ordered := OrderedSlots.empty.exchangeAll exchanges
    let striped := (StripedSlots.empty hasher stripes).exchangeAll exchanges
    let pairs := accounted exchanges
    (ordered.contents = pairs ∧ striped.contents = pairs) ∧
    (∀ slot key, (ordered.contains slot key = true ↔ 0 < pairs.count (slot, key)) ∧
      (striped.contains slot key = true ↔ 0 < pairs.count (slot, key))) ∧
    (ordered.counts = ((pairs.map Prod.fst).dedup.card, pairs.card) ∧
      striped.counts = ((pairs.map Prod.fst).dedup.card, pairs.card)) ∧
    ((∀ e ∈ ordered.values, e.2.isEmpty = false) ∧
      ∀ stripe ∈ striped.stripes, ∀ e ∈ stripe.slots, e.2.isEmpty = false) ∧
    ∀ limit, (∀ done, done <+: exchanges → ∀ pair, (accounted done).count pair < limit) →
      OrderedSlots.empty.exchangeAllWithin? limit exchanges = some ordered ∧
        (StripedSlots.empty hasher stripes).exchangeAllWithin? limit exchanges = some striped := by
  intro ordered striped pairs
  have hordered := OrderedSlots.follows_mapped exchanges
  have hstriped := StripedSlots.follows_mapped hasher stripes exchanges
  have hordwf : ordered.WF := hordered.wf
  have hstrwf : striped.WF := hstriped.wf
  have hordcount := OrderedSlots.occurrences_accounted exchanges
  have hstrcount := StripedSlots.occurrences_accounted hasher stripes exchanges
  have hpairs : pairs = Exchange.mapped .range exchanges := accounted_eq (by decide) exchanges
  have hpairs' : pairs = Exchange.mapped .hash exchanges := accounted_eq (by decide) exchanges
  refine ⟨⟨?_, ?_⟩, fun slot key => ⟨?_, ?_⟩, ⟨?_, ?_⟩,
    ⟨fun e he => (hordwf.postings e he).2, fun stripe hst e he => ((hstrwf.stripe stripe hst).postings e he).2⟩,
    fun limit hroom => ⟨?_, ?_⟩⟩
  · rw [hpairs]
    exact Multiset.coe_eq_coe.2 ((OrderedSlots.lists hordwf).perm fun slot key => (hordered.count slot key).symm)
  · rw [hpairs']
    exact Multiset.coe_eq_coe.2 ((StripedSlots.lists hstrwf).perm fun slot key => (hstriped.count slot key).symm)
  · rw [OrderedSlots.contains_iff hordwf, hordcount]
  · rw [StripedSlots.contains_iff hstrwf, hstrcount]
  · rw [hpairs]
    exact (OrderedSlots.lists hordwf).counts_eq fun slot key => (hordered.count slot key).symm
  · rw [hpairs']
    exact (StripedSlots.lists hstrwf).counts_eq fun slot key => (hstriped.count slot key).symm
  · refine foldlM_exchanges OrderedSlots.occurrences (fun s e (hs : s.WF) =>
      ⟨(OrderedSlots.update_spec hs e.key e.old e.new).1, OrderedSlots.updateWithin?_eq hs⟩) OrderedSlots.wf_empty
      fun done hdone slot key => ?_
    exact (OrderedSlots.occurrences_accounted done slot key).trans_lt (hroom done hdone (slot, key))
  · refine foldlM_exchanges StripedSlots.occurrences (fun s e (hs : s.WF) =>
      ⟨(StripedSlots.update_spec hs e.key e.old e.new).1, StripedSlots.updateWithin?_eq hs⟩)
      (StripedSlots.wf_empty hasher stripes) fun done hdone slot key => ?_
    exact (StripedSlots.occurrences_accounted hasher stripes done slot key).trans_lt (hroom done hdone (slot, key))

end IndexedStore
