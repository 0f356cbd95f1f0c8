import IndexedStore.Scope.Tuples

/-!
# Visits continued

The visit of a scope with more iterators is the visit of the first ones, each tuple of it continued by the
rest. `tuplesFrom_append_eq` says so of the visits as they are, with the faults that end them.
-/

namespace IndexedStore

namespace Visit

theorem fault_append {a b : Visit} : (a.append b).fault = none ↔ a.fault = none ∧ b.fault = none := by
  unfold append
  cases ha : a.fault <;> simp [ha]

theorem tuples_append {a : Visit} (h : a.fault = none) (b : Visit) :
    (a.append b).tuples = a.tuples ++ b.tuples := by
  simp [append, h]

theorem fault_concat {visits : List Visit} :
    (concat visits).fault = none ↔ ∀ v ∈ visits, v.fault = none := by
  induction visits with
  | nil => simp [concat]
  | cons v rest ih => simp [concat, fault_append, ih]

theorem tuples_concat {visits : List Visit} (h : ∀ v ∈ visits, v.fault = none) :
    (concat visits).tuples = visits.flatMap (·.tuples) := by
  induction visits with
  | nil => rfl
  | cons v rest ih =>
    rw [concat, tuples_append (h v (by simp)), ih fun w hw => h w (List.mem_cons_of_mem _ hw)]
    rfl

/-- Each tuple of a visit continued by a further visit, up to the first fault of either. -/
def continued (v : Visit) (further : List Value → Visit) : Visit :=
  (concat (v.tuples.map further)).append ⟨[], v.fault⟩

section
variable (a b c : Visit) (further : List Value → Visit)

theorem append_none : a.append ⟨[], none⟩ = a := by
  unfold append
  split
  · rfl
  · rename_i h
    rw [List.append_nil, ← h]

theorem append_assoc : (a.append b).append c = a.append (b.append c) := by
  cases ha : a.fault with
  | some fault => simp [append, ha]
  | none =>
    cases hb : b.fault with
    | some fault => simp [append, ha, hb]
    | none => simp [append, ha, hb]

/-- After a fault nothing is visited. -/
theorem append_of_fault {a : Visit} (h : a.fault ≠ none) (b : Visit) : a.append b = a := by
  unfold append
  split
  · rfl
  · rename_i hn
    exact absurd hn h

theorem concat_append (us vs : List Visit) : concat (us ++ vs) = (concat us).append (concat vs) := by
  induction us with
  | nil => simp [concat, append]
  | cons u us ih => rw [List.cons_append, concat, concat, ih, append_assoc]

theorem fault_continued : (a.continued further).fault = none ↔
    (∀ t ∈ a.tuples, (further t).fault = none) ∧ a.fault = none := by
  rw [continued, fault_append, fault_concat]
  simp

theorem tuples_continued {a : Visit} (h : (a.continued further).fault = none) :
    (a.continued further).tuples = a.tuples.flatMap fun t => (further t).tuples := by
  have hall : ∀ v ∈ a.tuples.map further, v.fault = none := by
    intro v hv
    obtain ⟨t, ht, rfl⟩ := List.mem_map.1 hv
    exact ((fault_continued _ _).1 h).1 t ht
  rw [continued, tuples_append (fault_concat.2 hall), tuples_concat hall, List.append_nil, List.flatMap_map]

/-- Continued by nothing a visit is what it was. -/
theorem continued_self : a.continued (fun t => ⟨[t], none⟩) = a := by
  have hconcat : ∀ ts : List (List Value), concat (ts.map fun t => ⟨[t], none⟩) = ⟨ts, none⟩ := by
    intro ts
    induction ts with
    | nil => rfl
    | cons t ts ih => rw [List.map_cons, concat, ih]; rfl
  rw [continued, hconcat]
  simp [append]

theorem continued_append : (a.append b).continued further = (a.continued further).append (b.continued further) := by
  cases ha : a.fault with
  | some fault =>
    have hfault : (a.continued further).fault ≠ none := by
      rw [Ne, fault_continued, ha]
      simp
    rw [append_of_fault (by simp [ha]), append_of_fault hfault]
  | none =>
    have hab : a.append b = ⟨a.tuples ++ b.tuples, b.fault⟩ := by simp [append, ha]
    rw [hab, continued, continued, continued, ha, append_none, List.map_append, concat_append, append_assoc]

theorem continued_concat (visits : List Visit) :
    (concat visits).continued further = concat (visits.map fun v => v.continued further) := by
  induction visits with
  | nil => rfl
  | cons v rest ih => rw [concat, continued_append, ih, List.map_cons, concat]

end

end Visit

namespace Scope

/-- A visit depends on the collections of its iterators only. -/
theorem tuplesFrom_congr {its its' : List ScopeIterator}
    (h : its.map (·.collection) = its'.map (·.collection)) (tuple : List Value) :
    tuplesFrom its tuple = tuplesFrom its' tuple := by
  induction its generalizing its' tuple with
  | nil => rw [List.map_eq_nil_iff.1 h.symm]
  | cons it rest ih =>
    cases its' with
    | nil => simp at h
    | cons it' rest' =>
      simp only [List.map_cons, List.cons.injEq] at h
      simp only [tuplesFrom, elementsOf, h.1]
      split <;> simp [fun tuple => ih h.2 tuple]

/-- The visited tuples begin with the elements that the visit began with, and have one more for each
iterator. -/
theorem tuplesFrom_extends {its : List ScopeIterator} {tuple u : List Value}
    (h : (tuplesFrom its tuple).fault = none) (hu : u ∈ (tuplesFrom its tuple).tuples) :
    tuple <+: u ∧ u.length = tuple.length + its.length := by
  induction its generalizing tuple with
  | nil =>
    obtain rfl : u = tuple := by simpa [tuplesFrom] using hu
    exact ⟨List.prefix_rfl, rfl⟩
  | cons it rest ih =>
    simp only [tuplesFrom] at h hu
    cases he : elementsOf it tuple with
    | error fault => simp [he, Visit.failed] at h
    | ok items =>
      simp only [he] at h hu
      have hitems := Visit.fault_concat.1 h
      rw [Visit.tuples_concat hitems] at hu
      obtain ⟨visit, hv, hu⟩ := List.mem_flatMap.1 hu
      obtain ⟨item, hitem, rfl⟩ := List.mem_map.1 hv
      obtain ⟨hpre, hlen⟩ := ih (hitems _ hv) hu
      refine ⟨(List.prefix_append _ _).trans hpre, ?_⟩
      simp only [hlen, List.length_append, List.length_cons, List.length_nil]
      omega

/-- **The visit of more iterators is that of the first ones, continued by the rest.** -/
theorem tuplesFrom_append_eq (its more : List ScopeIterator) (tuple : List Value) :
    tuplesFrom (its ++ more) tuple = (tuplesFrom its tuple).continued (tuplesFrom more) := by
  induction its generalizing tuple with
  | nil => rw [List.nil_append, tuplesFrom, Visit.continued, List.map_cons, List.map_nil, Visit.concat,
      Visit.concat, Visit.append_none, Visit.append_none]
  | cons it rest ih =>
    rw [List.cons_append, tuplesFrom, tuplesFrom]
    cases elementsOf it tuple with
    | error fault => rfl
    | ok items => simp only [Visit.continued_concat, List.map_map, Function.comp_def, ih]

end Scope

end IndexedStore
