import IndexedStore.Proofs.Slots.Counters
import IndexedStore.Proofs.Slots.Counts
import IndexedStore.Proofs.Slots.Ledger
import IndexedStore.Proofs.Slots.Refused

/-!
# Ownership after any updates

A primary-key store that has gone through any updates (`PrimaryKeyStructure::update_mapping`), some of which it
refused, is well formed and has the pairs that `Exchange.mapped` says (`UniqueSlots.follows_mapped`). One more update
is refused exactly where, with the old slots of its key taken out, another key owns one of the new values; it then
leaves the store that this taking out leaves, entry by entry (`UniqueSlots.update_refused`). Nothing of another key
changes, and no counter goes below zero on the way (`UniqueSlots.update_restores`).
-/

namespace IndexedStore.UniqueSlots

/-- The store after exchanges, of which it may have refused some. -/
def exchangeAll (s : UniqueSlots) (exchanges : List Exchange) : UniqueSlots :=
  exchanges.foldl (fun s e => (s.update e.key e.old e.new).2) s

theorem unique_exchangeAll (s : UniqueSlots) (exchanges : List Exchange) :
    (SlotStore.unique s).exchangeAll exchanges = .unique (s.exchangeAll exchanges) := by
  induction exchanges generalizing s with
  | nil => rfl
  | cons e rest ih => exact ih _

theorem exchangeAll_concat (s : UniqueSlots) (exchanges : List Exchange) (e : Exchange) :
    s.exchangeAll (exchanges ++ [e]) = ((s.exchangeAll exchanges).update e.key e.old e.new).2 := by
  rw [exchangeAll, List.foldl_append]
  rfl

theorem follows_mapped (name : String) (exchanges : List Exchange) :
    (SlotStore.unique ((empty name).exchangeAll exchanges)).Follows (Exchange.mapped .primaryKey exchanges) := by
  rw [← unique_exchangeAll]
  exact SlotStore.follows_mapped .primaryKey name default 0 exchanges

/-- An update is refused where, without the old slots of its key, one of the new values has another owner. -/
theorem update_refused_iff {s : UniqueSlots} (h : s.WF) (key : Key) (old new : List Slot) :
    (s.update key old new).1 ≠ none ↔ ∃ v owner, .defined v ∈ new ∧
      Table.find? v (old.foldl (·.remove key ·) s).owners = some owner ∧ owner.key ≠ key := by
  obtain ⟨hwf, hocc⟩ := foldl_remove_spec h key old
  have hrefused := SlotStore.update_refused_iff (show (SlotStore.unique s).WF from h) key old new
  have hleft : ∀ v k, k ≠ key → (0 < s.occurrences (.defined v) k ↔
      ∃ owner, Table.find? v (old.foldl (·.remove key ·) s).owners = some owner ∧ owner.key = k) := by
    intro v k hk
    have hsame := hocc (.defined v) k
    rw [if_neg hk, Nat.sub_zero] at hsame
    rw [← hsame, occurrences_defined_pos_iff hwf]
    simp only [Table.find?_eq_some_iff hwf.unique]
  refine hrefused.trans ⟨?_, ?_⟩
  · rintro ⟨-, v, k, hv, hk, hpos⟩
    obtain ⟨owner, hfind, rfl⟩ := (hleft v k hk).1 hpos
    exact ⟨v, owner, hv, hfind, hk⟩
  · rintro ⟨v, owner, hv, hfind, hk⟩
    exact ⟨rfl, v, owner.key, hv, hk, (hleft v owner.key hk).2 ⟨owner, hfind, rfl⟩⟩

theorem apart_update (s : UniqueSlots) (key : Key) (old new : List Slot) :
    (s.update key old new).2.apart key = s.apart key :=
  (apart_addAll new [] _).trans (apart_foldl_remove old s)

/-- **An update is refused exactly where another key owns a new value once the old slots are out; the store then
has lost these and gained nothing, and otherwise all new slots have come in.** Of other keys it has what it had,
its counters are what its pairs add up to, and none of them was lowered below zero or, with room below a limit,
raised to it. -/
theorem update_restores (name : String) (exchanges : List Exchange) (key : Key) (old new : List Slot) :
    let s := (empty name).exchangeAll exchanges
    let left := old.foldl (·.remove key ·) s
    let outcome := s.update key old new
    let mapped := Exchange.mapped .primaryKey (exchanges ++ [⟨key, old, new⟩])
    (∀ slot k, left.occurrences slot k = s.occurrences slot k - if k = key then old.count slot else 0) ∧
    (outcome.1 ≠ none ↔
      ∃ v owner, .defined v ∈ new ∧ Table.find? v left.owners = some owner ∧ owner.key ≠ key) ∧
    (outcome.1 ≠ none → outcome.2 = left) ∧
    (outcome.1 = none → ∀ slot k, outcome.2.occurrences slot k =
      left.occurrences slot k + if k = key then new.count slot else 0) ∧
    outcome.2.apart key = s.apart key ∧
    outcome.2.WF ∧ outcome.2.total = mapped.length ∧
    (∀ v owner, Table.find? v outcome.2.owners = some owner → owner.count = mapped.count (.defined v, owner.key)) ∧
    ∀ limit, (∀ slot, left.occurrences slot key + new.count slot < limit) →
      s.updateWithin? limit key old new = some outcome := by
  intro s left outcome mapped
  have hfollows := follows_mapped name exchanges
  have hwf : s.WF := hfollows.wf
  obtain ⟨hleft, hocc⟩ := foldl_remove_spec hwf key old
  have hafter := follows_mapped name (exchanges ++ [⟨key, old, new⟩])
  rw [exchangeAll_concat] at hafter
  have hcounts := SlotStore.counts_eq hafter.wf fun slot k => (hafter.count slot k).symm
  have hspec := update_spec hwf key old new
  refine ⟨hocc, update_refused_iff hwf key old new, fun hrefused => ?_, fun haccepted => ?_,
    apart_update s key old new, hafter.wf, congrArg Prod.snd hcounts, fun v owner hfind => ?_,
    fun limit hroom => updateWithin?_eq hwf hroom⟩
  · obtain ⟨violation, hv⟩ := Option.ne_none_iff_exists'.1 hrefused
    exact update_refused hwf (Prod.ext hv rfl)
  · rw [show s.update key old new = (none, outcome.2) from Prod.ext haccepted rfl] at hspec
    intro slot k
    rw [hspec.2.2, hocc]
  · have hcount : outcome.2.occurrences (.defined v) owner.key = mapped.count (.defined v, owner.key) :=
      hafter.count (.defined v) owner.key
    rw [← hcount, occurrences_defined hfind, if_pos rfl]

/-- A value mapped twice loses one mapping, and gets none back where the update ends at another key's value. -/
example : (((empty "id").exchangeAll [⟨.int 1, [], [.defined (.int 5)]⟩,
    ⟨.int 2, [], [.defined (.int 7), .undefined, .defined (.int 7)]⟩]).update (.int 2) [.defined (.int 7)]
      [.undefined, .defined (.int 7), .defined (.int 5)]).2.owners =
    [(.int 5, ⟨.int 1, 1⟩), (.int 7, ⟨.int 2, 1⟩)] := by decide

end IndexedStore.UniqueSlots
