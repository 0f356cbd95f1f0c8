import IndexedStore.Proofs.Scope.Continuation
import Mathlib.Data.List.Forall2

/-!
# Visits and positions

A position says which element to choose in the collection of each iterator, one after another. It leads to a tuple,
or to the fault of a collection that cannot be evaluated (`Scope.Leads`). The tuples of a scope's positions, in the
lexicographic order of the positions, are the nested comprehension over its collections. A visit passes through
them in this order up to the first position that leads to a fault, and ends with that fault
(`Scope.tuplesFrom_enumerates`).
-/

namespace IndexedStore

namespace Visit

/-- A visit that passes through positions in lexicographic order, each with the tuple that it leads to. They are
all positions that lead to tuples and come before any that leads to a fault, and the visit ends with the fault that
comes first. -/
structure Enumerates (visit : Visit) (leads : List Nat → Except EvaluationFault (List Value) → Prop)
    (positions : List (List Nat)) : Prop where
  ascending : positions.Pairwise (· < ·)
  tuples : List.Forall₂ (fun p u => leads p (.ok u)) positions visit.tuples
  mem_iff : ∀ p, p ∈ positions ↔ (∃ u, leads p (.ok u)) ∧ ∀ q fault, leads q (.error fault) → p < q
  complete : visit.fault = none → ∀ q fault, ¬leads q (.error fault)
  first : ∀ fault, visit.fault = some fault →
    ∃ q, leads q (.error fault) ∧ ∀ q' fault', leads q' (.error fault') → ¬q' < q

namespace Enumerates

variable {a b : Visit} {leads leads' : List Nat → Except EvaluationFault (List Value) → Prop}
  {positions positions' : List (List Nat)}

theorem congr (h : a.Enumerates leads positions) (hl : ∀ p outcome, leads p outcome ↔ leads' p outcome) :
    a.Enumerates leads' positions := by
  obtain rfl : leads = leads' := funext₂ fun p outcome => propext (hl p outcome)
  exact h

theorem exists_position (h : a.Enumerates leads positions) {u : List Value} (hu : u ∈ a.tuples) :
    ∃ p, leads p (.ok u) := by
  obtain ⟨i, hi, rfl⟩ := List.getElem_of_mem hu
  obtain ⟨hlength, hleads⟩ := List.forall₂_iff_get.1 h.tuples
  exact ⟨_, hleads i (by omega) hi⟩

/-- The visit of nothing. -/
theorem empty : Enumerates ⟨[], none⟩ (fun _ _ => False) [] where
  ascending := .nil
  tuples := .nil
  mem_iff := by simp
  complete := by simp
  first := by simp

/-- The visit of one tuple. -/
theorem single (tuple : List Value) :
    Enumerates ⟨[tuple], none⟩ (fun p outcome => p = [] ∧ outcome = .ok tuple) [[]] where
  ascending := List.pairwise_singleton _ _
  tuples := .cons ⟨rfl, rfl⟩ .nil
  mem_iff := by simp
  complete := by simp
  first := by simp

/-- A visit that fails at once. -/
theorem failed (fault : EvaluationFault) :
    (Visit.failed fault).Enumerates (fun p outcome => p = [] ∧ outcome = .error fault) [] where
  ascending := .nil
  tuples := .nil
  mem_iff := by simp
  complete := by simp [Visit.failed]
  first := by
    intro f hf
    obtain rfl := Option.some.inj hf
    refine ⟨[], ⟨rfl, rfl⟩, ?_⟩
    rintro _ _ ⟨rfl, -⟩
    exact List.not_lt_nil _

/-- A visit below the element at number `i`. -/
theorem below (h : a.Enumerates leads positions) (i : Nat) :
    a.Enumerates (fun p outcome => ∃ p', p = i :: p' ∧ leads p' outcome) (positions.map (i :: ·)) where
  ascending := List.pairwise_map.2 (h.ascending.imp fun hlt => List.cons_lt_cons_iff.2 (.inr ⟨rfl, hlt⟩))
  tuples := List.forall₂_map_left_iff.2 (h.tuples.imp fun p _ hu => ⟨p, rfl, hu⟩)
  mem_iff p := by
    constructor
    · intro hp
      obtain ⟨p', hp', rfl⟩ := List.mem_map.1 hp
      obtain ⟨⟨u, hu⟩, hbefore⟩ := (h.mem_iff p').1 hp'
      refine ⟨⟨u, p', rfl, hu⟩, ?_⟩
      rintro _ fault ⟨q', rfl, hq'⟩
      exact List.cons_lt_cons_iff.2 (.inr ⟨rfl, hbefore q' fault hq'⟩)
    · rintro ⟨⟨u, p', rfl, hu⟩, hbefore⟩
      refine List.mem_map.2 ⟨p', (h.mem_iff p').2 ⟨⟨u, hu⟩, fun q' fault hq' => ?_⟩, rfl⟩
      exact List.cons_lt_cons_self.1 (hbefore (i :: q') fault ⟨q', rfl, hq'⟩)
  complete := by
    rintro hnone _ fault ⟨q', rfl, hq'⟩
    exact h.complete hnone q' fault hq'
  first fault hfault := by
    obtain ⟨q, hq, hleast⟩ := h.first fault hfault
    refine ⟨i :: q, ⟨q, rfl, hq⟩, ?_⟩
    rintro _ fault' ⟨q', rfl, hq'⟩ hlt
    exact hleast q' fault' hq' (List.cons_lt_cons_self.1 hlt)

/-- After a visit that ends with a fault nothing later is visited. -/
theorem append_of_fault (ha : a.Enumerates leads positions) {fault : EvaluationFault} (hfault : a.fault = some fault)
    (later : ∀ p outcome p' outcome', leads p outcome → leads' p' outcome' → p < p') :
    a.Enumerates (fun p outcome => leads p outcome ∨ leads' p outcome) positions := by
  obtain ⟨q, hq, hleast⟩ := ha.first fault hfault
  refine ⟨ha.ascending, ha.tuples.imp fun _ _ => .inl, fun p => ⟨fun hp => ?_, ?_⟩, by simp [hfault], ?_⟩
  · obtain ⟨⟨u, hu⟩, hbefore⟩ := (ha.mem_iff p).1 hp
    refine ⟨⟨u, .inl hu⟩, ?_⟩
    rintro q fault (hq | hq)
    · exact hbefore q fault hq
    · exact later _ _ _ _ hu hq
  · rintro ⟨⟨u, hu | hu⟩, hbefore⟩
    · exact (ha.mem_iff p).2 ⟨⟨u, hu⟩, fun q fault hq => hbefore q fault (.inl hq)⟩
    · exact absurd (hbefore q fault (.inl hq)) (List.lt_asymm (later _ _ _ _ hq hu))
  · intro fault' hfault'
    obtain rfl := Option.some.inj (hfault.symm.trans hfault')
    refine ⟨q, .inl hq, ?_⟩
    rintro q' fault' (hq' | hq')
    · exact hleast q' fault' hq'
    · exact List.lt_asymm (later _ _ _ _ hq hq')

/-- A visit that comes to its end is continued by a later one. -/
theorem append_of_none (ha : a.Enumerates leads positions) (hfault : a.fault = none)
    (hb : b.Enumerates leads' positions')
    (later : ∀ p outcome p' outcome', leads p outcome → leads' p' outcome' → p < p') :
    Enumerates ⟨a.tuples ++ b.tuples, b.fault⟩ (fun p outcome => leads p outcome ∨ leads' p outcome)
      (positions ++ positions') := by
  have hnone := ha.complete hfault
  refine ⟨List.pairwise_append.2 ⟨ha.ascending, hb.ascending, fun p hp p' hp' => ?_⟩,
    List.rel_append (ha.tuples.imp fun _ _ => .inl) (hb.tuples.imp fun _ _ => .inr), fun p => ?_, ?_, ?_⟩
  · obtain ⟨⟨u, hu⟩, -⟩ := (ha.mem_iff p).1 hp
    obtain ⟨⟨u', hu'⟩, -⟩ := (hb.mem_iff p').1 hp'
    exact later _ _ _ _ hu hu'
  · rw [List.mem_append, ha.mem_iff, hb.mem_iff]
    constructor
    · rintro (⟨⟨u, hu⟩, -⟩ | ⟨⟨u, hu⟩, hbefore⟩)
      · refine ⟨⟨u, .inl hu⟩, ?_⟩
        rintro q fault (hq | hq)
        · exact absurd hq (hnone q fault)
        · exact later _ _ _ _ hu hq
      · refine ⟨⟨u, .inr hu⟩, ?_⟩
        rintro q fault (hq | hq)
        · exact absurd hq (hnone q fault)
        · exact hbefore q fault hq
    · rintro ⟨⟨u, hu | hu⟩, hbefore⟩
      · exact .inl ⟨⟨u, hu⟩, fun q fault hq => absurd hq (hnone q fault)⟩
      · exact .inr ⟨⟨u, hu⟩, fun q fault hq => hbefore q fault (.inr hq)⟩
  · rintro hb' q fault (hq | hq)
    · exact hnone q fault hq
    · exact hb.complete hb' q fault hq
  · intro fault hfault'
    obtain ⟨q, hq, hleast⟩ := hb.first fault hfault'
    refine ⟨q, .inr hq, ?_⟩
    rintro q' fault' (hq' | hq')
    · exact absurd hq' (hnone q' fault')
    · exact hleast q' fault' hq'

/-- One visit after another, all positions of which come later. -/
theorem append (ha : a.Enumerates leads positions) (hb : b.Enumerates leads' positions')
    (later : ∀ p outcome p' outcome', leads p outcome → leads' p' outcome' → p < p') :
    ∃ both, (a.append b).Enumerates (fun p outcome => leads p outcome ∨ leads' p outcome) both := by
  cases hfault : a.fault with
  | some fault =>
    rw [Visit.append_of_fault (by simp [hfault]) b]
    exact ⟨positions, ha.append_of_fault hfault later⟩
  | none =>
    have happend : a.append b = ⟨a.tuples ++ b.tuples, b.fault⟩ := by simp [Visit.append, hfault]
    rw [happend]
    exact ⟨positions ++ positions', ha.append_of_none hfault hb later⟩

/-- Visits one after another, each below its number. -/
theorem concat {α : Type} {visit : α → Visit} {leads : α → List Nat → Except EvaluationFault (List Value) → Prop}
    (h : ∀ item, ∃ positions, (visit item).Enumerates (leads item) positions) (items : List α) (start : Nat) :
    ∃ positions, (Visit.concat (items.map visit)).Enumerates
      (fun p outcome => ∃ i item p', items[i]? = some item ∧ p = (start + i) :: p' ∧ leads item p' outcome)
      positions := by
  induction items generalizing start with
  | nil => exact ⟨[], empty.congr (by simp)⟩
  | cons item rest ih =>
    obtain ⟨first, hfirst⟩ := h item
    obtain ⟨others, hothers⟩ := ih (start + 1)
    obtain ⟨both, hboth⟩ := (hfirst.below start).append hothers (by
      rintro _ _ _ _ ⟨p, rfl, -⟩ ⟨i, _, p', -, rfl, -⟩
      exact List.cons_lt_cons_iff.2 (.inl (by omega)))
    refine ⟨both, hboth.congr fun p outcome => ⟨?_, ?_⟩⟩
    · rintro (⟨p', rfl, hp'⟩ | ⟨i, item', p', hitem, rfl, hp'⟩)
      · exact ⟨0, item, p', rfl, rfl, hp'⟩
      · exact ⟨i + 1, item', p', hitem, by rw [Nat.add_right_comm, Nat.add_assoc], hp'⟩
    · rintro ⟨i, item', p', hitem, rfl, hp'⟩
      cases i with
      | zero =>
        obtain rfl := Option.some.inj hitem
        exact .inl ⟨p', rfl, hp'⟩
      | succ i => exact .inr ⟨i, item', p', hitem, by rw [Nat.add_right_comm, Nat.add_assoc], hp'⟩

end Enumerates

end Visit

namespace Scope

/-- What a position leads to from a tuple: with an element chosen in the collection of each iterator, the tuple
with these elements, and otherwise the fault of the first collection that cannot be evaluated. -/
inductive Leads : List ScopeIterator → List Value → List Nat → Except EvaluationFault (List Value) → Prop
  | tuple {tuple : List Value} : Leads [] tuple [] (.ok tuple)
  | fault {it : ScopeIterator} {rest : List ScopeIterator} {tuple : List Value} {fault : EvaluationFault}
      (elements : elementsOf it tuple = .error fault) : Leads (it :: rest) tuple [] (.error fault)
  | element {it : ScopeIterator} {rest : List ScopeIterator} {tuple items : List Value} {i : Nat} {item : Value}
      {position : List Nat} {outcome : Except EvaluationFault (List Value)} (elements : elementsOf it tuple = .ok items)
      (chosen : items[i]? = some item) (leads : Leads rest (tuple ++ [item]) position outcome) :
      Leads (it :: rest) tuple (i :: position) outcome

theorem leads_nil_iff {tuple : List Value} {p : List Nat} {outcome : Except EvaluationFault (List Value)} :
    Leads [] tuple p outcome ↔ p = [] ∧ outcome = .ok tuple := by
  constructor
  · rintro ⟨⟩
    exact ⟨rfl, rfl⟩
  · rintro ⟨rfl, rfl⟩
    exact .tuple

theorem leads_of_error {it : ScopeIterator} {rest : List ScopeIterator} {tuple : List Value} {fault : EvaluationFault}
    (h : elementsOf it tuple = .error fault) {p : List Nat} {outcome : Except EvaluationFault (List Value)} :
    Leads (it :: rest) tuple p outcome ↔ p = [] ∧ outcome = .error fault := by
  constructor
  · rintro (_ | he | ⟨he, -, -⟩)
    · obtain rfl := Except.error.inj (h.symm.trans he)
      exact ⟨rfl, rfl⟩
    · cases h.symm.trans he
  · rintro ⟨rfl, rfl⟩
    exact .fault h

theorem leads_of_ok {it : ScopeIterator} {rest : List ScopeIterator} {tuple items : List Value}
    (h : elementsOf it tuple = .ok items) {p : List Nat} {outcome : Except EvaluationFault (List Value)} :
    Leads (it :: rest) tuple p outcome ↔
      ∃ i item p', items[i]? = some item ∧ p = i :: p' ∧ Leads rest (tuple ++ [item]) p' outcome := by
  constructor
  · rintro (_ | he | ⟨he, hitem, hp⟩)
    · cases h.symm.trans he
    · obtain rfl := Except.ok.inj (h.symm.trans he)
      exact ⟨_, _, _, hitem, rfl, hp⟩
  · rintro ⟨i, item, p', hitem, rfl, hp⟩
    exact .element h hitem hp

/-- **A visit passes through the tuples of the nested comprehension in lexicographic order**, up to the first
collection that cannot be evaluated. -/
theorem tuplesFrom_enumerates (its : List ScopeIterator) (tuple : List Value) :
    ∃ positions, (tuplesFrom its tuple).Enumerates (Leads its tuple) positions := by
  induction its generalizing tuple with
  | nil => exact ⟨_, (Visit.Enumerates.single tuple).congr fun _ _ => leads_nil_iff.symm⟩
  | cons it rest ih =>
    rw [tuplesFrom]
    cases he : elementsOf it tuple with
    | error fault => exact ⟨_, (Visit.Enumerates.failed fault).congr fun _ _ => (leads_of_error he).symm⟩
    | ok items =>
      obtain ⟨positions, h⟩ := Visit.Enumerates.concat (fun item => ih (tuple ++ [item])) items 0
      refine ⟨positions, h.congr fun p outcome => ?_⟩
      simp only [Nat.zero_add, leads_of_ok he]

/-- A tuple that a position leads to has one more element for each iterator. -/
theorem Leads.length_ok {its : List ScopeIterator} {tuple u : List Value} {p : List Nat}
    (h : Leads its tuple p (.ok u)) : u.length = tuple.length + its.length := by
  generalize ho : (Except.ok u : Except EvaluationFault (List Value)) = outcome at h
  induction h with
  | tuple =>
    obtain rfl := Except.ok.inj ho
    rfl
  | fault => cases ho
  | element _ _ _ ih =>
    rw [ih ho, List.length_append, List.length_cons, List.length_cons, List.length_nil]
    omega

end Scope

end IndexedStore
