import IndexedStore.Proofs.KeyOrder
import IndexedStore.Proofs.Binary64.Denotation

/-!
# Numbers compare by magnitude

The keys of two numbers compare as the numbers do (`Key.order_by_magnitude`), although an integer is rounded
before it is compared with a float. Rounding is monotone and every float is rounded from itself, so only a tie
can deceive: but a float that an integer is rounded to is an integer again, and `Key.ofFloat` leaves no such
float in the range of integers.
-/

namespace IndexedStore

open Binary64

/-- A number as values have it: an integer of 64 bits, or a float that is no NaN. -/
inductive Numeral where
  | integer (i : Int64)
  | float (x : Binary64) (isNumber : x.isNaN = false)

namespace Numeral

/-- The key of a number. -/
def key : Numeral → Key
  | integer i => .int i
  | float x _ => .ofFloat x

/-- The number itself. -/
def toExtended : Numeral → ExtendedRat
  | integer i => ((i.toInt : ℚ) : WithTop ℚ)
  | float x _ => x.toExtended

/-- The number in units of `2 ^ -1074`. -/
def units : Numeral → Int
  | integer i => i.toInt * unitsPerOne
  | float x _ => x.signedUnits

end Numeral

/-! ## Floats that are integers -/

theorem word?_eq_some_iff {j : Int} {i : Int64} : word? j = some i ↔ j = i.toInt := by
  have hmin : Int64.minValue.toInt = -2 ^ 63 := by decide
  have hmax : Int64.maxValue.toInt = 2 ^ 63 - 1 := by decide
  have hlo := i.le_toInt
  have hhi := i.toInt_lt
  unfold word?
  rw [hmin, hmax]
  constructor
  · intro h
    split at h
    · rename_i hj
      rw [← Option.some.inj h, Int64.toInt_ofInt_of_le (by omega) (by omega)]
    · cases h
  · rintro rfl
    rw [if_pos (by omega), Int64.ofInt_toInt]

theorem word?_eq_none_iff {j : Int} : word? j = none ↔ ¬(-2 ^ 63 ≤ j ∧ j < 2 ^ 63) := by
  have hmin : Int64.minValue.toInt = -2 ^ 63 := by decide
  have hmax : Int64.maxValue.toInt = 2 ^ 63 - 1 := by decide
  unfold word?
  rw [hmin, hmax, ite_eq_right_iff]
  constructor
  · intro h hj
    exact absurd (h (by omega)) (by simp)
  · intro h hj
    omega

namespace Binary64

theorem toInt?_eq_some_iff {x : Binary64} {j : Int} :
    x.toInt? = some j ↔ x.isFinite = true ∧ x.signedUnits = j * unitsPerOne := by
  have hpos := unitsPerOne_pos
  simp only [toInt?, signedUnits]
  generalize x.units = units
  generalize unitsPerOne = one at *
  have hone : (one : Int) ≠ 0 := by omega
  constructor
  · intro h
    split at h
    · rename_i hx
      have hunits : (units : Int) / one * one = units :=
        Int.ediv_mul_cancel (Int.natCast_dvd_natCast.2 (Nat.dvd_of_mod_eq_zero hx.2))
      refine ⟨hx.1, ?_⟩
      rw [← Option.some.inj h]
      split
      · rw [Int.neg_mul, hunits]
      · exact hunits.symm
    · cases h
  · rintro ⟨hf, hx⟩
    have hquotient : ∀ k : Int, (units : Int) = k * one → units % one = 0 ∧ (units : Int) / one = k := by
      intro k hk
      have hdvd : one ∣ units := Int.natCast_dvd_natCast.1 ⟨k, by rw [hk, Int.mul_comm]⟩
      exact ⟨Nat.mod_eq_zero_of_dvd hdvd, by rw [hk, Int.mul_ediv_cancel _ hone]⟩
    split at hx
    · rename_i hneg
      obtain ⟨hmod, hdiv⟩ := hquotient (-j) (by rw [Int.neg_mul, ← hx, Int.neg_neg])
      rw [if_pos ⟨hf, hmod⟩, hdiv, if_pos hneg, Int.neg_neg]
    · rename_i hneg
      obtain ⟨hmod, hdiv⟩ := hquotient j hx
      rw [if_pos ⟨hf, hmod⟩, hdiv, if_neg hneg]

/-- A float with as many units as an integer of 64 bits is finite. -/
theorem isFinite_of_units {x : Binary64} (hx : x.isNaN = false) {i : Int64}
    (h : x.signedUnits = i.toInt * unitsPerOne) : x.isFinite = true := by
  have hlt := word_units_lt i
  have habs := congrArg Int.natAbs h
  rw [Int.natAbs_mul, Int.natAbs_natCast] at habs
  rw [isFinite_iff_units hx]
  unfold signedUnits at habs
  split at habs <;> omega

/-- No integer of 64 bits. -/
def NotWord (x : Binary64) : Prop := x.toInt?.bind word? = none

theorem NotWord.ne {x : Binary64} (hx : x.isNaN = false) (h : x.NotWord) (i : Int64) :
    x.signedUnits ≠ i.toInt * unitsPerOne := by
  intro heq
  rw [NotWord, toInt?_eq_some_iff.2 ⟨isFinite_of_units hx heq, heq⟩, Option.bind_some,
    word?_eq_some_iff.2 rfl] at h
  cases h

theorem NotWord.ne_zero {x : Binary64} (hx : x.isNaN = false) (h : x.NotWord) : x.signedUnits ≠ 0 := by
  have h0 := h.ne hx 0
  rwa [Int64.toInt_zero, Int.zero_mul] at h0

/-- An integer is rounded to a float after one that is none exactly if it is greater. -/
theorem NotWord.rank_lt_ofInt_iff {x : Binary64} (hx : x.isNaN = false) (h : x.NotWord) (i : Int64) :
    x.rank < (ofInt i.toInt).rank ↔ x.signedUnits < i.toInt * unitsPerOne := by
  have h0 := h.ne_zero hx
  rw [rank_ofInt_eq, rank_eq hx h0]
  constructor
  · intro hlt
    by_contra hn
    have := rankOfUnits_mono (Int.not_lt.1 hn)
    omega
  · intro hlt
    rcases Int.lt_or_eq_of_le (rankOfUnits_mono (Int.le_of_lt hlt)) with hrank | htie
    · exact hrank
    · -- the float is what the integer is rounded to, and so an integer in range
      exfalso
      rw [← rank_eq hx h0, ← rank_ofInt_eq] at htie
      obtain rfl := rank_injective htie
      obtain ⟨n, hn, hle⟩ := units_ofInt i
      obtain ⟨k, hk, hkn⟩ : ∃ k : Int, (ofInt i.toInt).signedUnits = k * unitsPerOne ∧ -(n : Int) ≤ k := by
        rw [signedUnits, hn]
        split
        · exact ⟨-n, by push_cast; ring, le_refl _⟩
        · exact ⟨n, by push_cast; ring, by omega⟩
      rw [hk] at hlt
      have hki := lt_of_mul_lt_mul_right hlt (Int.natCast_nonneg unitsPerOne)
      have hhi := i.toInt_lt
      rw [NotWord, toInt?_eq_some_iff.2 ⟨isFinite_ofInt i, hk⟩, Option.bind_some, word?_eq_none_iff] at h
      omega

end Binary64

/-- The key of a float is an integer exactly if the float denotes it. -/
theorem Key.ofFloat_eq_int_iff {x : Binary64} {i : Int64} :
    ofFloat x = .int i ↔ x.isFinite = true ∧ x.signedUnits = i.toInt * unitsPerOne := by
  rw [← toInt?_eq_some_iff]
  unfold ofFloat
  constructor
  · intro h
    split at h
    · cases h
    · split at h
      · rename_i j hj
        obtain rfl := Key.int.inj h
        obtain ⟨k, hk, hword⟩ := Option.bind_eq_some_iff.1 hj
        rw [hk, word?_eq_some_iff.1 hword]
      · cases h
  · intro h
    have hnumber := isNaN_of_isFinite (toInt?_eq_some_iff.1 h).1
    rw [if_neg (by simp [hnumber]), h, Option.bind_some, word?_eq_some_iff.2 rfl]

namespace Numeral

/-! ## Keys and numbers, both by units -/

theorem units_bounds (a : Numeral) :
    -(unitsOfInfinity : Int) ≤ a.units ∧ a.units ≤ unitsOfInfinity := by
  have habs : a.units.natAbs ≤ unitsOfInfinity := by
    cases a with
    | integer i =>
      rw [units, Int.natAbs_mul, Int.natAbs_natCast]
      exact Nat.le_of_lt (word_units_lt i)
    | float x hx =>
      have := units_le hx
      rw [units, signedUnits]
      split <;> omega
  omega

theorem toExtended_eq (a : Numeral) : a.toExtended = extend a.units := by
  cases a with
  | float x hx => exact Binary64.toExtended_eq hx
  | integer i =>
    have hlt := word_units_lt i
    have habs : (i.toInt * unitsPerOne).natAbs = i.toInt.natAbs * unitsPerOne := by
      rw [Int.natAbs_mul, Int.natAbs_natCast]
    show _ = extend (i.toInt * unitsPerOne)
    rw [extend, if_neg (by omega), if_neg (by omega)]
    push_cast
    rw [mul_div_cancel_right₀ _ unitsPerOne_cast_pos.ne']
    rfl

theorem toExtended_lt_iff (a b : Numeral) : a.toExtended < b.toExtended ↔ a.units < b.units := by
  rw [toExtended_eq, toExtended_eq]
  exact extend_lt_iff a.units_bounds b.units_bounds

theorem toExtended_eq_iff (a b : Numeral) : a.toExtended = b.toExtended ↔ a.units = b.units := by
  rw [toExtended_eq, toExtended_eq]
  constructor
  · intro h
    have hab := extend_lt_iff a.units_bounds b.units_bounds
    have hba := extend_lt_iff b.units_bounds a.units_bounds
    rw [h, lt_self_iff_false, false_iff] at hab hba
    omega
  · intro h
    rw [h]

/-- The key of a number is that of an integer, or a float that is no integer. -/
theorem key_cases (a : Numeral) :
    (∃ i : Int64, a.key = .int i ∧ a.units = i.toInt * unitsPerOne) ∨
      ∃ x : Binary64, a.key = .float x ∧ a.units = x.signedUnits ∧ x.isNaN = false ∧ x.NotWord := by
  cases a with
  | integer i => exact .inl ⟨i, rfl, rfl⟩
  | float x hx =>
    cases hword : x.toInt?.bind word? with
    | none =>
      refine .inr ⟨x, ?_, rfl, hx, hword⟩
      rw [key, Key.ofFloat, if_neg (by simp [hx]), hword]
    | some i =>
      have hkey : Key.ofFloat x = .int i := by rw [Key.ofFloat, if_neg (by simp [hx]), hword]
      exact .inl ⟨i, hkey, (Key.ofFloat_eq_int_iff.1 hkey).2⟩

theorem key_lt_iff (a b : Numeral) : Key.order a.key b.key = .lt ↔ a.units < b.units := by
  have hpos : (0 : Int) < unitsPerOne := Int.natCast_pos.2 unitsPerOne_pos
  obtain ⟨i, ha, hau⟩ | ⟨x, ha, hau, hx, hxw⟩ := key_cases a <;>
    obtain ⟨j, hb, hbu⟩ | ⟨y, hb, hbu, hy, hyw⟩ := key_cases b <;>
    rw [ha, hb, hau, hbu]
  · rw [Key.order, Std.compare_eq_lt, Int.mul_lt_mul_right hpos]
  · have hrank := hyw.rank_lt_ofInt_iff hy i
    have hne := hyw.ne hy i
    simp only [Key.order, totalCompare, Ordering.then_eq_lt, Std.compare_eq_lt, Std.compare_eq_iff_eq, and_true]
    omega
  · have hrank := hxw.rank_lt_ofInt_iff hx j
    simp only [Key.order, totalCompare, Ordering.then_eq_lt, Std.compare_eq_lt, reduceCtorEq, and_false, or_false]
    exact hrank
  · rw [Key.order, totalCompare, Std.compare_eq_lt, rank_lt_iff hx hy (hxw.ne_zero hx) (hyw.ne_zero hy)]

theorem order_key (a b : Numeral) : Key.order a.key b.key = compare a.toExtended b.toExtended := by
  have hab := key_lt_iff a b
  have hba := key_lt_iff b a
  rw [← toExtended_lt_iff] at hab hba
  rcases lt_trichotomy a.toExtended b.toExtended with hlt | heq | hgt
  · rw [hab.2 hlt, compare_lt_iff_lt.2 hlt]
  · rw [compare_eq_iff_eq.2 heq]
    rw [Key.order_swap, Ordering.swap_eq_lt, heq, lt_self_iff_false, iff_false] at hba
    rw [heq, lt_self_iff_false, iff_false] at hab
    cases h : Key.order a.key b.key with
    | lt => exact absurd h hab
    | eq => rfl
    | gt => exact absurd h hba
  · rw [Key.order_swap, hba.2 hgt, compare_gt_iff_gt.2 hgt]
    rfl

/-- The key that all NaNs have comes after that of every number. -/
theorem key_lt_nan (a : Numeral) : Key.order a.key (.float .nan) = .lt := by
  have hnan : (infinityCode : Int) < Binary64.nan.rank := by decide
  obtain ⟨i, ha, -⟩ | ⟨x, ha, -, hx, -⟩ := key_cases a <;> rw [ha]
  · have hlt := roundRatio_word_lt i
    simp only [Key.order, totalCompare, Ordering.then_eq_lt, Std.compare_eq_lt, rank_ofInt]
    left
    split <;> omega
  · have hle := magnitude_le hx
    simp only [Key.order, totalCompare, Std.compare_eq_lt]
    rw [rank]
    split <;> omega

end Numeral

/-- **The keys of two numbers compare as the numbers do.** All NaNs have one key, which comes after those of
all numbers; a float has the key of an integer of 64 bits exactly if it denotes that integer; and the float
that an integer is compared by is the nearest one, a half going to the even. -/
theorem Key.order_by_magnitude :
    (∀ a b : Numeral, order a.key b.key = compare a.toExtended b.toExtended) ∧
      (∀ a b : Numeral, a.key = b.key ↔ a.toExtended = b.toExtended) ∧
      (∀ x : Binary64, x.isNaN = true → ofFloat x = .float .nan) ∧
      (∀ a : Numeral, order a.key (.float .nan) = .lt) ∧
      (∀ (x : Binary64) (i : Int64), ofFloat x = .int i ↔
        x.isNaN = false ∧ x.toExtended = ((i.toInt : ℚ) : WithTop ℚ)) ∧
      ∀ i : Int64, NearestEven i.toInt (ofInt i.toInt) := by
  refine ⟨Numeral.order_key, fun a b => ?_, fun x hx => by rw [ofFloat, if_pos hx], Numeral.key_lt_nan,
    fun x i => ?_, nearestEven_ofInt⟩
  · rw [← compare_eq_iff, ← compare_eq_iff_eq (a := a.toExtended), ← Numeral.order_key]
    rfl
  · rw [ofFloat_eq_int_iff]
    constructor
    · rintro ⟨hfinite, hunits⟩
      have hx := isNaN_of_isFinite hfinite
      exact ⟨hx, (Numeral.toExtended_eq_iff (.float x hx) (.integer i)).2 hunits⟩
    · rintro ⟨hx, hnumber⟩
      have hunits := (Numeral.toExtended_eq_iff (.float x hx) (.integer i)).1 hnumber
      exact ⟨isFinite_of_units hx hunits, hunits⟩

/-- The largest integer of 64 bits is rounded to a float that is too large for one, and comes before it. -/
example : Key.order (.int Int64.maxValue) (Key.ofFloat (ofInt (2 ^ 63))) = .lt := by decide +kernel

end IndexedStore
