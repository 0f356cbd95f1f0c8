import IndexedStore.Proofs.Slots.Striped

/-!
# Calls that lock stripes

A call to a striped store locks the stripes it needs (`StripedCall.locks`): `HashStructure::update_mapping` those of
its slots, `contains` and a look-up of one slot that slot's stripe, and a call that asks or empties the whole store,
as `counts`, `clear` and a look-up of all slots but one, all stripes. Every call locks its stripes in ascending order,
each once (`locks_ascending`), and what it answers and changes depends on these stripes alone (`confined`). An update
finds the stripe of each of its slots among those it has locked, so it passes over none of them
(`StripedSlots.update_eq_updateDirectly`).
-/

namespace IndexedStore

/-- A call to a striped store. -/
inductive StripedCall where
  | update (key : Key) (old new : List Slot)
  | lookup (op : Comparison) (probe : Option Key)
  | contains (slot : Slot) (key : Key)
  | counts
  | clear
deriving Repr, Inhabited

inductive StripedAnswer where
  | done
  | found (lookup : Lookup)
  | member (there : Bool)
  | counted (counts : Nat × Nat)
deriving Repr, Inhabited

namespace StripedCall

/-- Whether a call locks its stripes for itself alone, to change them. -/
def writes : StripedCall → Bool
  | .update .. | .clear => true
  | .lookup .. | .contains .. | .counts => false

def answer (s : StripedSlots) : StripedCall → StripedAnswer
  | .update .. | .clear => .done
  | .lookup op probe => .found (s.lookup op probe)
  | .contains slot key => .member (s.contains slot key)
  | .counts => .counted s.counts

/-- The store after a call. -/
def after (s : StripedSlots) : StripedCall → StripedSlots
  | .update key old new => s.update key old new
  | .clear => s.cleared
  | .lookup .. | .contains .. | .counts => s

/-- The stripes that a call locks, in the order of locking. -/
def locks (s : StripedSlots) : StripedCall → List Nat
  | .update _ old new => s.held (old ++ new)
  | .lookup .eq (some p) => [s.stripeOf (.defined p)]
  | .lookup .isUndefined _ => [s.stripeOf .undefined]
  | .contains slot _ => [s.stripeOf slot]
  | .lookup .ne _ | .counts | .clear => List.range s.stripes.length
  | .lookup _ _ => []

end StripedCall

/-! ## What an update finds locked -/

namespace StripedSlots

theorem held_singleton (s : StripedSlots) (slot : Slot) : s.held [slot] = [s.stripeOf slot] := by
  simp [held, List.eraseReps, List.eraseRepsBy, List.eraseRepsBy.loop]

/-- One change to the stripe of a slot, whatever is locked. -/
def changeDirectly (s : StripedSlots) (slot : Slot) (f : Stripe → Stripe) : StripedSlots :=
  { s with stripes := s.stripes.modify (s.stripeOf slot) f }

/-- The mappings of an entry key changed from `old` to `new`, each slot's in its stripe. -/
def updateDirectly (s : StripedSlots) (key : Key) (old new : List Slot) : StripedSlots :=
  let cleared := old.foldl (fun s slot => s.changeDirectly slot (·.remove key slot)) s
  new.foldl (fun s slot => s.changeDirectly slot (·.add key slot)) cleared

/-- Where the stripes of slots are held, each of the slots is changed. -/
theorem foldl_change_eq {locked : List Nat} (hl : locked.Pairwise (· < ·)) (f : Slot → Stripe → Stripe)
    {slots : List Slot} {s : StripedSlots} (h : ∀ slot ∈ slots, s.stripeOf slot ∈ locked) :
    slots.foldl (fun s slot => s.change locked slot (f slot)) s =
      slots.foldl (fun s slot => s.changeDirectly slot (f slot)) s := by
  induction slots generalizing s with
  | nil => rfl
  | cons slot rest ih =>
    have hfirst : s.change locked slot (f slot) = s.changeDirectly slot (f slot) :=
      change_eq hl (h slot (by simp)) (f slot)
    have hrest : ∀ sl ∈ rest, (s.change locked slot (f slot)).stripeOf sl ∈ locked := by
      intro sl hsl
      rw [stripeOf_change]
      exact h sl (List.mem_cons_of_mem _ hsl)
    rw [List.foldl_cons, List.foldl_cons, ih hrest, hfirst]

theorem stripeOf_foldl_change (locked : List Nat) (f : Slot → Stripe → Stripe) (slots : List Slot)
    (s : StripedSlots) (sl : Slot) :
    (slots.foldl (fun s slot => s.change locked slot (f slot)) s).stripeOf sl = s.stripeOf sl := by
  induction slots generalizing s with
  | nil => rfl
  | cons slot rest ih => rw [List.foldl_cons, ih, stripeOf_change]

/-- An update passes over none of its slots. -/
theorem update_eq_updateDirectly (s : StripedSlots) (key : Key) (old new : List Slot) :
    s.update key old new = s.updateDirectly key old new := by
  have hl := held_ascending s (old ++ new)
  have hheld : ∀ slot ∈ old ++ new, s.stripeOf slot ∈ s.held (old ++ new) :=
    fun slot hslot => mem_held.2 ⟨slot, hslot, rfl⟩
  have hold := foldl_change_eq hl (fun slot => (·.remove key slot))
    fun slot hslot => hheld slot (List.mem_append_left new hslot)
  rw [update, updateDirectly, ← hold]
  refine foldl_change_eq hl (fun slot => (·.add key slot)) fun slot hslot => ?_
  rw [stripeOf_foldl_change]
  exact hheld slot (List.mem_append_right old hslot)

/-! ## What a call reads and changes -/

/-- Stores that spread slots alike, of which some stripes are the same. -/
structure SameOn (p : Nat → Prop) (s t : StripedSlots) : Prop where
  hasher : t.hasher = s.hasher
  length : t.stripes.length = s.stripes.length
  same : ∀ n, p n → t.stripes[n]? = s.stripes[n]?

namespace SameOn

variable {p : Nat → Prop} {s t u : StripedSlots}

theorem refl (p : Nat → Prop) (s : StripedSlots) : s.SameOn p s := ⟨rfl, rfl, fun _ _ => rfl⟩

theorem trans (h : s.SameOn p t) (h' : t.SameOn p u) : s.SameOn p u :=
  ⟨h'.hasher.trans h.hasher, h'.length.trans h.length, fun n hn => (h'.same n hn).trans (h.same n hn)⟩

theorem stripeOf (h : s.SameOn p t) (slot : Slot) : t.stripeOf slot = s.stripeOf slot := by
  cases slot <;> simp only [StripedSlots.stripeOf, h.hasher, h.length]

theorem stripeAt (h : s.SameOn p t) {n : Nat} (hn : p n) : t.stripeAt n = s.stripeAt n := by
  rw [StripedSlots.stripeAt, StripedSlots.stripeAt, h.same n hn]

theorem locks (h : s.SameOn p t) (call : StripedCall) : call.locks t = call.locks s := by
  have hstripe : t.stripeOf = s.stripeOf := funext h.stripeOf
  unfold StripedCall.locks
  simp only [held, hstripe, h.length]

/-- Stores that agree on all their stripes are equal. -/
theorem eq_of_range (h : s.SameOn (· ∈ List.range s.stripes.length) t) : t = s := by
  have hstripes : t.stripes = s.stripes := by
    apply List.ext_getElem?
    intro n
    by_cases hn : n < s.stripes.length
    · exact h.same n (List.mem_range.2 hn)
    · have hlength := h.length
      rw [List.getElem?_eq_none (by omega), List.getElem?_eq_none (by omega)]
  have hhasher := h.hasher
  cases s; cases t
  simp_all

end SameOn

variable {s t : StripedSlots} (locked : List Nat)

/-- A change is made to a stripe that is held, if at all. -/
theorem change_spares (s : StripedSlots) (slot : Slot) (f : Stripe → Stripe) :
    s.SameOn (· ∉ locked) (s.change locked slot f) := by
  unfold change
  split
  · rename_i n hn
    obtain ⟨i, -, hi⟩ := Option.bind_eq_some_iff.1 hn
    refine ⟨rfl, List.length_modify _ _ _, fun m hm => ?_⟩
    have hne : n ≠ m := fun he => hm (he ▸ List.mem_of_getElem? hi)
    simp [hne]
  · exact .refl _ s

theorem SameOn.change (h : s.SameOn (· ∈ locked) t) (slot : Slot) (f : Stripe → Stripe) :
    (s.change locked slot f).SameOn (· ∈ locked) (t.change locked slot f) := by
  unfold StripedSlots.change
  rw [h.stripeOf slot]
  split
  · refine ⟨h.hasher, by simp [h.length], fun m hm => ?_⟩
    simp only [List.getElem?_modify, h.same m hm]
  · exact h

theorem foldl_change_spares (f : Slot → Stripe → Stripe) (slots : List Slot) (s : StripedSlots) :
    s.SameOn (· ∉ locked) (slots.foldl (fun s slot => s.change locked slot (f slot)) s) := by
  induction slots generalizing s with
  | nil => exact .refl _ s
  | cons slot rest ih => exact (change_spares locked s slot (f slot)).trans (ih _)

theorem SameOn.foldl_change (h : s.SameOn (· ∈ locked) t) (f : Slot → Stripe → Stripe) (slots : List Slot) :
    (slots.foldl (fun s slot => s.change locked slot (f slot)) s).SameOn (· ∈ locked)
      (slots.foldl (fun s slot => s.change locked slot (f slot)) t) := by
  induction slots generalizing s t with
  | nil => exact h
  | cons slot rest ih => exact ih (h.change locked slot (f slot))

end StripedSlots

namespace StripedCall

/-- What a call answers and changes depends on the stripes it locks alone. -/
structure Confined (call : StripedCall) (s : StripedSlots) : Prop where
  spares : s.SameOn (· ∉ call.locks s) (call.after s)
  reads : ∀ t, s.SameOn (· ∈ call.locks s) t →
    call.answer t = call.answer s ∧ (call.after s).SameOn (· ∈ call.locks s) (call.after t)

/-- A call that locks all stripes. -/
theorem confined_of_all {call : StripedCall} {s : StripedSlots}
    (hlocks : call.locks s = List.range s.stripes.length)
    (hlayout : s.SameOn (fun _ => False) (call.after s)) : call.Confined s where
  spares := by
    refine ⟨hlayout.hasher, hlayout.length, fun n hn => ?_⟩
    have hout : s.stripes.length ≤ n := by simpa [hlocks] using hn
    have hlength := hlayout.length
    rw [List.getElem?_eq_none (by omega), List.getElem?_eq_none (by omega)]
  reads t ht := by
    rw [hlocks] at ht
    obtain rfl := ht.eq_of_range
    exact ⟨rfl, .refl _ _⟩

/-- A call that changes nothing and reads one stripe at most. -/
theorem confined_of_answer {call : StripedCall} {s : StripedSlots} (hafter : ∀ t, call.after t = t)
    (hanswer : ∀ t, s.SameOn (· ∈ call.locks s) t → call.answer t = call.answer s) : call.Confined s where
  spares := by
    rw [hafter]
    exact .refl _ s
  reads t ht := ⟨hanswer t ht, by rw [hafter, hafter]; exact ht⟩

theorem confined_update (key : Key) (old new : List Slot) (s : StripedSlots) : (update key old new).Confined s where
  spares := (StripedSlots.foldl_change_spares _ _ old s).trans (StripedSlots.foldl_change_spares _ _ new _)
  reads t ht := by
    have hheld : t.held (old ++ new) = s.held (old ++ new) := ht.locks (update key old new)
    refine ⟨rfl, ?_⟩
    simp only [after, StripedSlots.update, hheld]
    exact (ht.foldl_change _ (fun slot => (·.remove key slot)) old).foldl_change _ (fun slot => (·.add key slot)) new

theorem confined_lookup (op : Comparison) (probe : Option Key) (s : StripedSlots) : (lookup op probe).Confined s := by
  by_cases hne : op = .ne
  · subst hne
    exact confined_of_all rfl (.refl _ s)
  · refine confined_of_answer (fun _ => rfl) fun t ht => ?_
    have hmatching : t.matching op probe = s.matching op probe := by
      cases op with
      | eq =>
        cases probe with
        | none => rfl
        | some p => simp only [StripedSlots.matching, ht.stripeOf, ht.stripeAt (List.mem_singleton_self _)]
      | isUndefined => simp only [StripedSlots.matching, ht.stripeOf, ht.stripeAt (List.mem_singleton_self _)]
      | ne => exact absurd rfl hne
      | lt | le | gt | ge => rfl
    simp only [answer, StripedSlots.lookup, hmatching]

/-- **What a call answers and changes depends on the stripes it locks alone.** -/
theorem confined (call : StripedCall) (s : StripedSlots) : call.Confined s := by
  cases call with
  | update key old new => exact confined_update key old new s
  | lookup op probe => exact confined_lookup op probe s
  | contains slot key =>
    refine confined_of_answer (fun _ => rfl) fun t ht => ?_
    simp only [answer, StripedSlots.contains, ht.stripeOf, ht.stripeAt (List.mem_singleton_self _)]
  | counts => exact confined_of_all rfl (.refl _ s)
  | clear => exact confined_of_all rfl ⟨rfl, List.length_map _, fun _ h => h.elim⟩

/-! ## The order of locking -/

/-- Every call locks the stripes of some slots, or all stripes. -/
theorem locks_cases (call : StripedCall) (s : StripedSlots) :
    (∃ slots, call.locks s = s.held slots) ∨ call.locks s = List.range s.stripes.length := by
  unfold locks
  split
  case h_1 old new => exact .inl ⟨old ++ new, rfl⟩
  case h_2 p => exact .inl ⟨[.defined p], (s.held_singleton _).symm⟩
  case h_3 => exact .inl ⟨[.undefined], (s.held_singleton _).symm⟩
  case h_4 slot _ => exact .inl ⟨[slot], (s.held_singleton _).symm⟩
  case h_5 | h_6 | h_7 => exact .inr rfl
  case h_8 => exact .inl ⟨[], by simp [StripedSlots.held, List.eraseReps, List.eraseRepsBy]⟩

/-- Every call locks its stripes in ascending order, each once. -/
theorem locks_ascending (call : StripedCall) (s : StripedSlots) : (call.locks s).Pairwise (· < ·) := by
  rcases call.locks_cases s with ⟨slots, h⟩ | h <;> rw [h]
  · exact s.held_ascending slots
  · exact List.pairwise_lt_range

theorem lt_of_mem_locks {s : StripedSlots} (h : s.WF) {call : StripedCall} {n : Nat} (hn : n ∈ call.locks s) :
    n < s.stripes.length := by
  rcases call.locks_cases s with ⟨slots, hlocks⟩ | hlocks <;> rw [hlocks] at hn
  · obtain ⟨slot, -, rfl⟩ := StripedSlots.mem_held.1 hn
    exact StripedSlots.stripeOf_lt h slot
  · exact List.mem_range.1 hn

theorem wf_after {s : StripedSlots} (h : s.WF) (call : StripedCall) : (call.after s).WF := by
  cases call with
  | update key old new => exact (StripedSlots.update_spec h key old new).1
  | clear => exact h.cleared
  | lookup | contains | counts => exact h

theorem locks_after (call other : StripedCall) (s : StripedSlots) : other.locks (call.after s) = other.locks s :=
  (call.confined s).spares.locks other

end StripedCall

end IndexedStore
