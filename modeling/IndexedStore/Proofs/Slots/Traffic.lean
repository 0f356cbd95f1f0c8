import IndexedStore.Proofs.Slots.Locking
import Mathlib.Logic.Relation

/-!
# Calls under way together

Calls to a striped store may be under way together. Each locks its stripes one after another and waits wherever
another call is in its way; once it has them all it does its work and lets go of them. `Traffic` is a store with the
calls under way, and `Traffic.Moves` is what one of them does next. The work of a call is one move, since it depends
on the stripes that the call has locked alone, and what it changes no other call has locked.

`HashStructure::update_mapping` sorts the stripes that it locks. As every call locks its stripes in ascending order, a
call holds lower stripes only than the one it is to lock next. So no calls wait for each other, however they come
together, and all of them can be brought to their end (`Traffic.Reachable.locking_orderly`).
-/

namespace IndexedStore

/-- A call under way: the stripes it has locked, and those it is still to lock, the next one first. -/
structure Ongoing where
  call : StripedCall
  held : List Nat
  ahead : List Nat
deriving Repr, Inhabited

namespace Ongoing

/-- The stripe that a call is to lock next is held by another. -/
def WaitsFor (a b : Ongoing) : Prop := ∃ n ∈ a.ahead.head?, n ∈ b.held

/-- What two calls have both locked neither of them changes. -/
def Apart (a b : Ongoing) : Prop := ∀ n ∈ a.held, n ∈ b.held → a.call.writes = false ∧ b.call.writes = false

theorem Apart.symm {a b : Ongoing} (h : a.Apart b) : b.Apart a := fun n hb ha => (h n ha hb).symm

/-- A call holds lower stripes only than the one it is to lock next. -/
theorem held_lt {c : Ongoing} (hc : (c.held ++ c.ahead).Pairwise (· < ·)) {m n : Nat} (hm : m ∈ c.held)
    (hn : n ∈ c.ahead.head?) : m < n :=
  (List.pairwise_append.1 hc).2.2 m hm n (List.mem_of_head? hn)

end Ongoing

/-- A store and the calls under way on it. -/
structure Traffic where
  store : StripedSlots
  calls : List Ongoing
deriving Inhabited

namespace Traffic

/-- What a call under way does next. It locks its next stripe, unless another call has locked it and one of the
two is to change it; and with all its stripes locked it does its work and lets go of them. -/
inductive Moves : Traffic → Traffic → Prop
  | locks {store : StripedSlots} {before after : List Ongoing} {call : StripedCall} {held : List Nat} {n : Nat}
      {ahead : List Nat}
      (free : ∀ other ∈ before ++ after, n ∈ other.held → call.writes = false ∧ other.call.writes = false) :
      Moves ⟨store, before ++ ⟨call, held, n :: ahead⟩ :: after⟩ ⟨store, before ++ ⟨call, held ++ [n], ahead⟩ :: after⟩
  | ends {store : StripedSlots} {before after : List Ongoing} {call : StripedCall} {held : List Nat} :
      Moves ⟨store, before ++ ⟨call, held, []⟩ :: after⟩ ⟨call.after store, before ++ after⟩

/-- What becomes of an empty store on which calls begin and move in any order. -/
inductive Reachable (hasher : Hasher) (stripes : Nat) : Traffic → Prop
  | empty : Reachable hasher stripes ⟨.empty hasher stripes, []⟩
  | begins {t : Traffic} (h : Reachable hasher stripes t) (call : StripedCall) :
      Reachable hasher stripes ⟨t.store, t.calls ++ [⟨call, [], call.locks t.store⟩]⟩
  | moves {t t' : Traffic} (h : Reachable hasher stripes t) (move : t.Moves t') : Reachable hasher stripes t'

/-- How many stripes there are from the one that a call is to lock next. -/
def room (t : Traffic) (c : Ongoing) : Nat := c.ahead.head?.elim 0 (t.store.stripes.length - ·)

/-- The calls under way are at some point of locking what they lock, and keep apart. -/
structure Orderly (t : Traffic) : Prop where
  wf : t.store.WF
  locks : ∀ c ∈ t.calls, c.held ++ c.ahead = c.call.locks t.store
  apart : t.calls.Pairwise Ongoing.Apart

namespace Orderly

variable {t t' : Traffic}

theorem begins (h : t.Orderly) (call : StripedCall) :
    Orderly ⟨t.store, t.calls ++ [⟨call, [], call.locks t.store⟩]⟩ where
  wf := h.wf
  locks c hc := by
    rcases List.mem_append.1 hc with hc | hc
    · exact h.locks c hc
    · rw [List.mem_singleton.1 hc]
      rfl
  apart := by
    refine List.pairwise_append.2 ⟨h.apart, List.pairwise_singleton _ _, fun a _ b hb n _ hn => ?_⟩
    rw [List.mem_singleton.1 hb] at hn
    cases hn

theorem moves (h : t.Orderly) (move : t.Moves t') : t'.Orderly := by
  cases move with
  | @locks store before after call held n ahead free =>
    obtain ⟨hfirst, hrest⟩ := List.pairwise_cons.1 ((List.pairwise_middle Ongoing.Apart.symm).1 h.apart)
    refine ⟨h.wf, fun c hc => ?_, (List.pairwise_middle Ongoing.Apart.symm).2 (List.pairwise_cons.2 ⟨?_, hrest⟩)⟩
    · simp only [List.mem_append, List.mem_cons] at hc
      rcases hc with hc | rfl | hc
      · exact h.locks c (by simp [hc])
      · simpa using h.locks ⟨call, held, n :: ahead⟩ (by simp)
      · exact h.locks c (by simp [hc])
    · intro other hother m hm hmo
      rcases List.mem_append.1 hm with hm | hm
      · exact hfirst other hother m hm hmo
      · rw [List.mem_singleton.1 hm] at hmo
        exact free other hother hmo
  | @ends store before after call held =>
    refine ⟨StripedCall.wf_after h.wf call, fun c hc => ?_, ?_⟩
    · rw [StripedCall.locks_after]
      refine h.locks c ?_
      rcases List.mem_append.1 hc with hc | hc <;> simp [hc]
    · exact (List.pairwise_cons.1 ((List.pairwise_middle Ongoing.Apart.symm).1 h.apart)).2

theorem ascending (h : t.Orderly) {c : Ongoing} (hc : c ∈ t.calls) : (c.held ++ c.ahead).Pairwise (· < ·) := by
  rw [h.locks c hc]
  exact StripedCall.locks_ascending _ _

/-- No two calls wait for each other, nor does one wait for itself. -/
theorem not_waits (h : t.Orderly) {a b : Ongoing} (ha : a ∈ t.calls) (hb : b ∈ t.calls) :
    ¬(a.WaitsFor b ∧ b.WaitsFor a) := by
  rintro ⟨⟨n, hn, hnb⟩, m, hm, hma⟩
  have hmn : m < n := Ongoing.held_lt (h.ascending ha) hma hn
  have hnm : n < m := Ongoing.held_lt (h.ascending hb) hnb hm
  omega

theorem lt_of_mem_ahead (h : t.Orderly) {c : Ongoing} (hc : c ∈ t.calls) {n : Nat} (hn : n ∈ c.ahead) :
    n < t.store.stripes.length := by
  apply StripedCall.lt_of_mem_locks h.wf
  rw [← h.locks c hc]
  exact List.mem_append_right _ hn

/-- From a call that waits to the one it waits for the stripe to be locked next is a later one. -/
theorem room_lt_of_waits (h : t.Orderly) {c d : Ongoing} (hc : c ∈ t.calls) (hd : d ∈ t.calls) (hw : c.WaitsFor d) :
    t.room d < t.room c := by
  obtain ⟨n, hn, hnd⟩ := hw
  have hlt := h.lt_of_mem_ahead hc (List.mem_of_head? hn)
  rw [room, room, show c.ahead.head? = some n from hn]
  cases hm : d.ahead.head? with
  | none => exact Nat.sub_pos_of_lt hlt
  | some m =>
    have hnm : n < m := Ongoing.held_lt (h.ascending hd) hnd hm
    simp only [Option.elim]
    omega

/-- Some call waits for none. -/
theorem exists_unhindered (h : t.Orderly) {c : Ongoing} (hc : c ∈ t.calls) :
    ∃ d ∈ t.calls, ∀ e ∈ t.calls, ¬d.WaitsFor e := by
  -- along the calls that wait for one another, since the stripes to be locked next come to an end
  induction hk : t.room c using Nat.strongRecOn generalizing c with
  | ind k ih =>
    by_cases hwait : ∃ d ∈ t.calls, c.WaitsFor d
    · obtain ⟨d, hd, hcd⟩ := hwait
      exact ih _ (hk ▸ h.room_lt_of_waits hc hd hcd) hd rfl
    · exact ⟨c, hc, fun d hd hcd => hwait ⟨d, hd, hcd⟩⟩

/-- While calls are under way, one of them can move. -/
theorem exists_move (h : t.Orderly) (hne : t.calls ≠ []) : ∃ t', t.Moves t' := by
  obtain ⟨store, calls⟩ := t
  obtain ⟨c, hc⟩ := List.exists_mem_of_ne_nil calls hne
  obtain ⟨⟨call, held, ahead⟩, hd, hfree⟩ := h.exists_unhindered hc
  obtain ⟨before, after, rfl⟩ := List.append_of_mem hd
  cases ahead with
  | nil => exact ⟨_, .ends⟩
  | cons n ahead =>
    refine ⟨_, .locks fun other hother hn => absurd ⟨n, rfl, hn⟩ (hfree other ?_)⟩
    rcases List.mem_append.1 hother with ho | ho <;> simp [ho]

end Orderly

/-- How many moves the calls under way have before them. -/
def movesLeft (t : Traffic) : Nat := sumOf (·.ahead.length + 1) t.calls

theorem Moves.movesLeft_lt {t t' : Traffic} (h : t.Moves t') : t'.movesLeft < t.movesLeft := by
  cases h with
  | locks _ | ends =>
    simp only [movesLeft, sumOf_append, sumOf, List.length_cons, List.length_nil]
    omega

/-- The calls under way come to their end by moves of theirs. -/
theorem Orderly.ends {t : Traffic} (h : t.Orderly) : ∃ store, Relation.ReflTransGen Moves t ⟨store, []⟩ := by
  induction hk : t.movesLeft using Nat.strongRecOn generalizing t with
  | ind k ih =>
    by_cases hne : t.calls = []
    · exact ⟨t.store, by rw [← hne]⟩
    · obtain ⟨t', hmove⟩ := h.exists_move hne
      obtain ⟨store, hrun⟩ := ih _ (hk ▸ hmove.movesLeft_lt) (h.moves hmove) rfl
      exact ⟨store, .head hmove hrun⟩

namespace Reachable

variable {hasher : Hasher} {stripes : Nat} {t : Traffic}

theorem orderly (h : Reachable hasher stripes t) : t.Orderly := by
  induction h with
  | empty => exact ⟨StripedSlots.wf_empty hasher stripes, fun _ hc => (List.not_mem_nil hc).elim, .nil⟩
  | begins _ call ih => exact ih.begins call
  | moves _ move ih => exact ih.moves move

/-- **An update locks the stripes of all its slots, each once and in ascending order, and calls never wait for
each other.** Whatever calls were made before and are under way: the stripes that an update locks exist, ascend
and are those of its slots, each of which is found among them, so that none is passed over. Every call locks its
stripes in ascending order, and depends on these alone. The calls under way hold the first of the stripes that
they lock; a stripe that one is to change only that one holds; no two wait for each other; and all can be brought
to their end. -/
theorem locking_orderly (h : Reachable hasher stripes t) :
    (∀ key old new, let locked := (StripedCall.update key old new).locks t.store
      (∀ n ∈ locked, n < t.store.stripes.length) ∧ locked.Pairwise (· < ·) ∧
      (∀ slot ∈ old ++ new, t.store.stripeOf slot ∈ locked ∧
        ∃ i, StripedSlots.place? (t.store.stripeOf slot) locked = some i ∧
          locked[i]? = some (t.store.stripeOf slot)) ∧
      t.store.update key old new = t.store.updateDirectly key old new) ∧
    (∀ call : StripedCall, (call.locks t.store).Pairwise (· < ·) ∧ call.Confined t.store) ∧
    (∀ c ∈ t.calls, c.held ++ c.ahead = c.call.locks t.store) ∧
    t.calls.Pairwise Ongoing.Apart ∧
    (∀ a ∈ t.calls, ∀ b ∈ t.calls, ¬(a.WaitsFor b ∧ b.WaitsFor a)) ∧
    ∃ store, Relation.ReflTransGen Moves t ⟨store, []⟩ := by
  have ho := h.orderly
  refine ⟨fun key old new => ?_, fun call => ⟨call.locks_ascending _, call.confined _⟩, ho.locks, ho.apart,
    fun a ha b hb => ho.not_waits ha hb, ho.ends⟩
  have hascending := (StripedCall.update key old new).locks_ascending t.store
  refine ⟨fun n hn => StripedCall.lt_of_mem_locks ho.wf hn, hascending, fun slot hslot => ?_,
    StripedSlots.update_eq_updateDirectly _ _ _ _⟩
  have hmem : t.store.stripeOf slot ∈ (StripedCall.update key old new).locks t.store :=
    StripedSlots.mem_held.2 ⟨slot, hslot, rfl⟩
  exact ⟨hmem, StripedSlots.place?_spec hascending hmem⟩

end Reachable

/-- One stripe for all defined slots and one for the undefined slot. An update waits to lock the latter, which a
call that reads it holds, and a count of all slots waits for the update. -/
def queue : Traffic := ⟨.empty ⟨fun _ => 0⟩ 1,
  [⟨.update (.int 1) [] [.undefined, .defined (.int 7)], [0], [1]⟩, ⟨.counts, [], [0, 1]⟩,
    ⟨.contains .undefined (.int 2), [1], []⟩]⟩

theorem queue_reachable : Reachable ⟨fun _ => 0⟩ 1 queue := by
  have hupdate : (StripedCall.update (.int 1) [] [.undefined, .defined (.int 7)]).locks
      (.empty ⟨fun _ => 0⟩ 1) = [0, 1] := by
    simp [StripedCall.locks, StripedSlots.held, StripedSlots.stripeOf, StripedSlots.empty, Hasher.key, List.mergeSort,
      List.eraseReps, List.eraseRepsBy, List.eraseRepsBy.loop]
  have hbegun : Reachable ⟨fun _ => 0⟩ 1 _ := ((Reachable.empty.begins (.update (.int 1) [] [.undefined,
    .defined (.int 7)])).begins .counts).begins (.contains .undefined (.int 2))
  rw [hupdate] at hbegun
  have hlocked := hbegun.moves (@Moves.locks _ [] _ _ _ _ _ (by simp))
  exact hlocked.moves (@Moves.locks _ [_, _] [] _ _ _ _ (by decide))

theorem locking_orderly_queue : Reachable ⟨fun _ => 0⟩ 1 queue ∧
    (∃ a ∈ queue.calls, ∃ b ∈ queue.calls, ∃ c ∈ queue.calls, a.WaitsFor b ∧ b.WaitsFor c) ∧
    (∀ a ∈ queue.calls, ∀ b ∈ queue.calls, ¬(a.WaitsFor b ∧ b.WaitsFor a)) ∧
    ∃ store, Relation.ReflTransGen Moves queue ⟨store, []⟩ := by
  obtain ⟨-, -, -, -, hwaits, hends⟩ := queue_reachable.locking_orderly
  refine ⟨queue_reachable, ⟨_, List.getElem_mem (show 1 < 3 by decide), _, List.getElem_mem (show 0 < 3 by decide), _,
    List.getElem_mem (show 2 < 3 by decide), ⟨0, rfl, by decide⟩, 1, rfl, by decide⟩, hwaits, hends⟩

end Traffic

end IndexedStore
