import IndexedStore.Key.Conversion
import IndexedStore.Proofs.Rounding
import Mathlib.Order.Defs.LinearOrder

/-!
# The order of keys

Keys are linearly ordered. Two things are not obvious. An integer and a float compare through the
rounded integer, so a chain of the two kinds needs `Binary64.ofInt_rank_mono`; `numberCode` turns that
into a comparison of triples. And composites compare part by part, so the laws of keys and of lists of
keys are proved together, by recursion on the left key.

`Grounded` keys are not below the floor of their class. Every key of a value is grounded, which is what
makes the slices of an ordered slot store proper.
-/

namespace IndexedStore.Key

/-! ## Classes come before contents -/

theorem keyClass_rank_le_of_order {a b : Key} (h : order a b ≠ .gt) :
    a.keyClass.rank ≤ b.keyClass.rank := by
  cases a <;> cases b <;> simp_all [order, keyClass, compare, compareOfLessAndEq, KeyClass.rank]

theorem order_of_rank_lt {a b : Key} (h : a.keyClass.rank < b.keyClass.rank) : order a b = .lt := by
  cases a <;> cases b <;> simp_all [order, keyClass, compare, compareOfLessAndEq, KeyClass.rank]

theorem keyClass_eq_of_rank {a b : KeyClass} (h : a.rank = b.rank) : a = b := by
  cases a <;> cases b <;> simp_all [KeyClass.rank]

/-! ## Numbers -/

/-- Numbers compare as their codes do: by the float they round to, integers before floats, and
integers that round to one float by themselves. -/
def numberCode : Key → Int × Int × Int
  | .int i => ((Binary64.ofInt i.toInt).rank, 0, i.toInt)
  | .float x => (x.rank, 1, 0)
  | _ => (0, 0, 0)

/-- One code before another. -/
def CodeLt (p q : Int × Int × Int) : Prop :=
  p.1 < q.1 ∨ p.1 = q.1 ∧ (p.2.1 < q.2.1 ∨ p.2.1 = q.2.1 ∧ p.2.2 < q.2.2)

theorem CodeLt.trans {p q r : Int × Int × Int} (h : CodeLt p q) (k : CodeLt q r) : CodeLt p r := by
  unfold CodeLt at *; omega

theorem order_number_lt {a b : Key} (ha : a.keyClass = .number) (hb : b.keyClass = .number) :
    order a b = .lt ↔ CodeLt a.numberCode b.numberCode := by
  cases a <;> simp only [keyClass, reduceCtorEq] at ha <;> cases b <;> simp only [keyClass, reduceCtorEq] at hb
  case int.int i j =>
    simp only [order, numberCode, CodeLt, Std.compare_eq_lt, true_and]
    constructor
    · intro h
      have := Binary64.ofInt_rank_mono (Int.le_of_lt h)
      omega
    · intro h
      by_contra hn
      have := Binary64.ofInt_rank_mono (Int.not_lt.1 hn)
      omega
  case int.float i y =>
    simp only [order, numberCode, CodeLt, Binary64.totalCompare, Ordering.then_eq_lt, Std.compare_eq_lt,
      Std.compare_eq_iff_eq, and_true]
    omega
  case float.int x j =>
    simp only [order, numberCode, CodeLt, Binary64.totalCompare, Ordering.then_eq_lt, Std.compare_eq_lt,
      reduceCtorEq, and_false, or_false]
    omega
  case float.float x y =>
    simp only [order, numberCode, CodeLt, Binary64.totalCompare, Std.compare_eq_lt]
    omega

/-! ## Both directions agree -/

theorem scalar_swap {a b : Key} (h : a.keyClass ≠ .composite) : order a b = (order b a).swap := by
  have swapRank : ∀ i j : Int, compare i j = (compare j i).swap := fun _ _ => Std.OrientedOrd.eq_swap
  cases a <;> simp only [keyClass, ne_eq, reduceCtorEq, not_true_eq_false] at h <;> cases b
  case bool.bool x y => cases x <;> cases y <;> rfl
  case int.int i j => exact Std.OrientedOrd.eq_swap
  case int.float i y => simp only [order, Binary64.totalCompare, Ordering.swap_then, ← swapRank]; rfl
  case float.int x j => simp only [order, Binary64.totalCompare, Ordering.swap_then, ← swapRank]; rfl
  case float.float x y => exact Std.OrientedOrd.eq_swap
  case text.text s t => exact Std.OrientedOrd.eq_swap
  all_goals rfl

mutual

theorem order_swap : ∀ a b : Key, order a b = (order b a).swap
  | .composite as, .composite bs => by simp only [order]; exact orderParts_swap as bs
  | .bool _, _ | .int _, _ | .float _, _ | .text _, _ => scalar_swap (by simp [keyClass])
  | .composite _, .bool _ | .composite _, .int _ | .composite _, .float _ | .composite _, .text _ => rfl

theorem orderParts_swap : ∀ as bs : List Key, orderParts as bs = (orderParts bs as).swap
  | [], [] | [], _ :: _ | _ :: _, [] => rfl
  | a :: as, b :: bs => by
    simp only [orderParts, Ordering.swap_then, ← order_swap a b, ← orderParts_swap as bs]

end

/-! ## Transitivity -/

theorem scalar_lt_trans {a b c : Key} (h : a.keyClass ≠ .composite) (hab : order a b = .lt)
    (hbc : order b c = .lt) : order a c = .lt := by
  have rab := keyClass_rank_le_of_order (show order a b ≠ .gt by simp [hab])
  have rbc := keyClass_rank_le_of_order (show order b c ≠ .gt by simp [hbc])
  rcases Nat.lt_or_ge a.keyClass.rank c.keyClass.rank with hlt | hge
  · exact order_of_rank_lt hlt
  · have eb : b.keyClass = a.keyClass := keyClass_eq_of_rank (by omega)
    have ec : c.keyClass = a.keyClass := keyClass_eq_of_rank (by omega)
    cases a with
    | bool x =>
      cases b <;> simp only [keyClass, reduceCtorEq] at eb
      cases c <;> simp only [keyClass, reduceCtorEq] at ec
      simp only [order] at *
      exact Std.TransCmp.lt_trans hab hbc
    | text s =>
      cases b <;> simp only [keyClass, reduceCtorEq] at eb
      cases c <;> simp only [keyClass, reduceCtorEq] at ec
      simp only [order] at *
      exact Std.TransCmp.lt_trans hab hbc
    | int i =>
      rw [order_number_lt rfl eb] at hab
      rw [order_number_lt eb ec] at hbc
      exact (order_number_lt rfl ec).2 (hab.trans hbc)
    | float x =>
      rw [order_number_lt rfl eb] at hab
      rw [order_number_lt eb ec] at hbc
      exact (order_number_lt rfl ec).2 (hab.trans hbc)
    | composite as => exact absurd rfl h

theorem composite_of_order_lt {as : List Key} {b : Key} (h : order (.composite as) b = .lt) :
    ∃ bs, b = .composite bs := by
  cases b <;> simp_all [order, keyClass, compare, compareOfLessAndEq, KeyClass.rank]

mutual

theorem order_lt_trans : ∀ {a b c : Key}, order a b = .lt → order b c = .lt → order a c = .lt
  | .composite as, _, _, hab, hbc => by
    obtain ⟨bs, rfl⟩ := composite_of_order_lt hab
    obtain ⟨cs, rfl⟩ := composite_of_order_lt hbc
    simp only [order] at *
    exact orderParts_lt_trans hab hbc
  | .bool _, _, _, hab, hbc | .int _, _, _, hab, hbc | .float _, _, _, hab, hbc
  | .text _, _, _, hab, hbc => scalar_lt_trans (by simp [keyClass]) hab hbc

theorem orderParts_lt_trans : ∀ {as bs cs : List Key}, orderParts as bs = .lt → orderParts bs cs = .lt →
    orderParts as cs = .lt
  | [], _, [], _, hbc => by cases ‹List Key› <;> simp [orderParts] at *
  | [], _, _ :: _, _, _ => rfl
  | _ :: _, [], _, hab, _ => by simp [orderParts] at hab
  | _ :: _, _ :: _, [], _, hbc => by simp [orderParts] at hbc
  | a :: as, b :: bs, c :: cs, hab, hbc => by
    simp only [orderParts, Ordering.then_eq_lt] at *
    rcases hab with hab | ⟨hab, pab⟩ <;> rcases hbc with hbc | ⟨hbc, pbc⟩
    · exact .inl (order_lt_trans hab hbc)
    · exact .inl (eq_of_order hbc ▸ hab)
    · exact .inl (eq_of_order hab ▸ hbc)
    · exact .inr ⟨eq_of_order hab ▸ hbc, orderParts_lt_trans pab pbc⟩

end

/-! ## The linear order -/

instance : LinearOrder Key where
  le a b := a.upTo b
  lt a b := a.before b
  le_refl a := by simp [upTo, compare_eq_iff.2]
  le_trans a b c hab hbc := by
    simp only [upTo, bne_iff_ne, ne_eq] at *
    rcases hlt : compare a b with _ | _ | _
    · rcases hlt' : compare b c with _ | _ | _
      · simp [show compare a c = .lt from order_lt_trans hlt hlt']
      · simp [← compare_eq_iff.1 hlt', hlt]
      · exact absurd hlt' hbc
    · exact compare_eq_iff.1 hlt ▸ hbc
    · exact absurd hlt hab
  lt_iff_le_not_ge a b := by
    have := order_swap a b
    simp only [before, upTo, compare] at *
    rw [this]
    cases order b a <;> simp [Ordering.swap]
  le_antisymm a b hab hba := by
    simp only [upTo, compare, order_swap a b] at *
    exact (eq_of_order (by cases h : order b a <;> simp_all [Ordering.swap])).symm
  le_total a b := by
    have := order_swap a b
    simp only [upTo, compare] at *
    rw [this]
    cases order b a <;> simp [Ordering.swap]
  toDecidableLE _ _ := inferInstanceAs (Decidable (_ = true))
  toDecidableLT _ _ := inferInstanceAs (Decidable (_ = true))
  toDecidableEq := inferInstance
  compare := order
  compare_eq_compareOfLessAndEq a b := by
    show order a b = if a.before b = true then .lt else if a = b then .eq else .gt
    by_cases hlt : a.before b = true
    · rw [if_pos hlt]
      simpa [before, compare] using hlt
    · rw [if_neg hlt]
      by_cases heq : a = b
      · rw [if_pos heq, heq, order_self]
      · rw [if_neg heq]
        cases h : order a b with
        | lt => exact absurd (by simp [before, compare, h]) hlt
        | eq => exact absurd (eq_of_order h) heq
        | gt => rfl

@[simp] theorem before_iff_lt {a b : Key} : a.before b = true ↔ a < b := Iff.rfl

@[simp] theorem upTo_iff_le {a b : Key} : a.upTo b = true ↔ a ≤ b := Iff.rfl

theorem compare_eq_lt_iff {a b : Key} : compare a b = .lt ↔ a < b := by
  show _ ↔ (compare a b == .lt) = true
  simp

theorem compare_eq_gt_iff {a b : Key} : compare a b = .gt ↔ b < a := by
  rw [← compare_eq_lt_iff, show compare a b = (compare b a).swap from order_swap a b]
  cases compare b a <;> simp [Ordering.swap]

/-- Classes do not interleave. -/
theorem keyClass_rank_mono {a b : Key} (h : a ≤ b) : a.keyClass.rank ≤ b.keyClass.rank :=
  keyClass_rank_le_of_order (by simpa [upTo, compare] using show a.upTo b = true from h)

/-- What lies between two keys of one class is of that class. -/
theorem keyClass_between {a b c : Key} (hab : a ≤ b) (hbc : b ≤ c) (h : a.keyClass = c.keyClass) :
    b.keyClass = c.keyClass := by
  have h1 := keyClass_rank_mono hab
  have h2 := keyClass_rank_mono hbc
  rw [h] at h1
  exact keyClass_eq_of_rank (by omega)

/-! ## Keys of values lie above the floor of their class -/

/-- Not below the floor of its class. -/
def Grounded (k : Key) : Prop := floor k.keyClass ≤ k

instance (k : Key) : Decidable k.Grounded := inferInstanceAs (Decidable (_ ≤ _))

@[simp] theorem keyClass_floor (c : KeyClass) : (floor c).keyClass = c := by cases c <;> rfl

theorem grounded_int (i : Int64) : (Key.int i).Grounded := by
  have hcode := Binary64.roundRatio_word_lt i
  show floor .number ≤ Key.int i
  refine le_of_lt (compare_eq_lt_iff.1 ?_)
  show order (.float .negInfinity) (.int i) = .lt
  have hf : Binary64.negInfinity.rank = -(Binary64.infinityCode : Int) - 1 := by decide
  simp only [order, Binary64.totalCompare, Ordering.then_eq_lt, Std.compare_eq_lt, hf, Binary64.rank_ofInt]
  left
  split <;> omega

theorem grounded_float {x : Binary64} (h : x.isNaN = false) : (Key.float x).Grounded := by
  have hm : x.magnitude ≤ Binary64.infinityCode := by simpa [Binary64.isNaN] using h
  have hf : Binary64.negInfinity.rank = -(Binary64.infinityCode : Int) - 1 := by decide
  apply le_of_not_gt
  intro hlt
  have : order (.float x) (.float .negInfinity) = .lt := compare_eq_lt_iff.2 hlt
  simp only [order, Binary64.totalCompare, Std.compare_eq_lt, hf] at this
  simp only [Binary64.rank] at this
  split at this <;> omega

theorem grounded_ofFloat (x : Binary64) : (ofFloat x).Grounded := by
  unfold ofFloat
  split
  · decide
  · rename_i h
    split
    · exact grounded_int _
    · exact grounded_float (by simpa using h)

theorem grounded_ofValue {v : Value} {k : Key} (h : ofValue v = .ok (some k)) : k.Grounded := by
  cases v with
  | null | undefined => simp [ofValue] at h
  | bool b =>
    obtain rfl : Key.bool b = k := by simpa [ofValue] using h
    cases b <;> decide
  | integer i =>
    obtain rfl : Key.int i = k := by simpa [ofValue] using h
    exact grounded_int i
  | float x =>
    obtain rfl : ofFloat x = k := by simpa [ofValue] using h
    exact grounded_ofFloat x
  | text s =>
    obtain rfl : Key.text s = k := by simpa [ofValue] using h
    apply le_of_not_gt
    intro hlt
    have : order (.text s) (.text "") = .lt := compare_eq_lt_iff.2 hlt
    simp only [order, compare, String.compare, compareOfLessAndEq, String.lt_iff, String.toList_empty,
      List.not_lt_nil, if_false] at this
    split at this <;> cases this
  | list items =>
    simp only [ofValue] at h
    cases hi : ofItems items with
    | error _ => simp [hi, Except.map] at h
    | ok parts =>
      obtain rfl : Key.composite parts = k := by simpa [hi, Except.map] using h
      apply le_of_not_gt
      intro hlt
      have : order (.composite parts) (.composite []) = .lt := compare_eq_lt_iff.2 hlt
      cases parts <;> simp [order, orderParts] at this
  | map fields => simp [ofValue] at h

end IndexedStore.Key
