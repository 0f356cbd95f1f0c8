import IndexedStore.Value.Basic
import IndexedStore.Proofs.Binary64.Units
import Mathlib.Algebra.Order.Field.Basic
import Mathlib.Algebra.Order.Field.Rat
import Mathlib.Order.WithBot
import Mathlib.Tactic.Linarith
import Mathlib.Tactic.NormNum

/-!
# The numbers that floats denote

`toRat` reads the bits of a finite float as the standard for binary floating point does, and `toExtended`
adds the infinities. Both are multiples of `2 ^ -1074`, so what is said of them is proved of `signedUnits`
(`toRat_eq`, `toExtended_eq`), where infinity counts as the first number that is too large.

A float other than a NaN or a zero is rounded from its own units, so floats stand in the total order as the
numbers that they denote do (`rank_lt_iff`). An integer of 64 bits is rounded to the nearest float, a half to
the even one (`nearestEven_ofInt`), and the float is an integer again (`units_ofInt`).
-/

namespace IndexedStore

/-- Rational numbers and the two infinities. -/
abbrev ExtendedRat := WithBot (WithTop ℚ)

namespace Binary64

/-- The number that the bits of a finite float denote: a significand, with a leading one unless the exponent
field is zero, times a power of two. -/
def toRat (x : Binary64) : ℚ :=
  (if x.negative then -1 else 1) *
    if x.exponentField = 0 then (x.fraction : ℚ) * 2 ^ (-1074 : ℤ)
    else (2 ^ 52 + x.fraction : ℚ) * 2 ^ ((x.exponentField : ℤ) - 1075)

/-- The number that a float other than a NaN denotes. -/
def toExtended (x : Binary64) : ExtendedRat :=
  if x.isFinite then ((x.toRat : WithTop ℚ) : ExtendedRat) else if x.negative then ⊥ else ⊤

/-- `x` is the finite float nearest to `q`; of two that are equally near, the one with an even fraction. -/
structure NearestEven (q : ℚ) (x : Binary64) : Prop where
  finite : x.isFinite = true
  negative : x.negative = true ↔ q < 0
  nearest : ∀ y : Binary64, y.isFinite = true → |q - x.toRat| ≤ |q - y.toRat|
  even : ∀ y : Binary64, y.isFinite = true → |q - x.toRat| = |q - y.toRat| →
    y.toRat = x.toRat ∨ x.fraction % 2 = 0

/-! ## Numbers and units -/

theorem cast_two_pow (e : ℕ) : ((Nat.pow 2 e : ℕ) : ℚ) = 2 ^ (e : ℤ) := by
  rw [zpow_natCast]
  exact Nat.cast_pow 2 e

theorem unitsPerOne_cast : (unitsPerOne : ℚ) = 2 ^ (1074 : ℤ) := by
  unfold unitsPerOne
  generalize he : (1074 : ℕ) = e
  rw [cast_two_pow, ← he, Nat.cast_ofNat]

theorem unitsPerOne_cast_pos : (0 : ℚ) < unitsPerOne := Nat.cast_pos.2 unitsPerOne_pos

theorem toRat_eq (x : Binary64) : x.toRat = x.signedUnits / unitsPerOne := by
  have hunits : (x.units : ℚ) / unitsPerOne =
      if x.exponentField = 0 then (x.fraction : ℚ) * 2 ^ (-1074 : ℤ)
      else (2 ^ 52 + x.fraction : ℚ) * 2 ^ ((x.exponentField : ℤ) - 1075) := by
    rw [unitsPerOne_cast, div_eq_mul_inv, ← zpow_neg, units]
    split
    · rfl
    · have hb : (binade : ℚ) = 2 ^ 52 := by norm_num [binade]
      have he : ((x.exponentField - 1 : ℕ) : ℤ) = (x.exponentField : ℤ) - 1 := by omega
      rw [Nat.cast_mul, Nat.cast_add, hb, spacing, cast_two_pow, he, mul_assoc, ← zpow_add₀ (by norm_num)]
      congr 2
      ring
  rw [toRat, ← hunits, signedUnits]
  split <;> push_cast <;> ring

theorem signedUnits_eq_zero_iff {x : Binary64} : x.signedUnits = 0 ↔ x.units = 0 := by
  unfold signedUnits
  split <;> omega

/-- The units of infinity: the first that are too many. -/
def unitsOfInfinity : Nat := unitsOf infinityCode

theorem unitsOfInfinity_pos : 0 < unitsOfInfinity := by
  have h := (unitsOf_lt_iff (Nat.zero_le infinityCode) (Nat.le_refl _)).2 (by decide)
  exact Nat.lt_of_le_of_lt (Nat.zero_le _) h

theorem magnitude_le {x : Binary64} (h : x.isNaN = false) : x.magnitude ≤ infinityCode := by
  simpa [isNaN] using h

theorem isFinite_iff_units {x : Binary64} (h : x.isNaN = false) :
    x.isFinite = true ↔ x.units < unitsOfInfinity := by
  rw [units_eq, unitsOfInfinity, unitsOf_lt_iff (magnitude_le h) (Nat.le_refl _)]
  simp [isFinite]

theorem units_le {x : Binary64} (h : x.isNaN = false) : x.units ≤ unitsOfInfinity := by
  by_contra hn
  have := (unitsOf_lt_iff (Nat.le_refl _) (magnitude_le h)).1 (Nat.not_le.1 hn)
  have := magnitude_le h
  omega

theorem isNaN_of_isFinite {x : Binary64} (h : x.isFinite = true) : x.isNaN = false := by
  simp only [isFinite, isNaN, decide_eq_true_eq, decide_eq_false_iff_not] at *
  omega

/-- The extended number of a signed number of units. -/
def extend (units : Int) : ExtendedRat :=
  if units ≤ -unitsOfInfinity then ⊥
  else if unitsOfInfinity ≤ units then ⊤
  else (((units : ℚ) / unitsPerOne : ℚ) : WithTop ℚ)

theorem extend_lt_iff {m n : Int} (hm : -(unitsOfInfinity : Int) ≤ m ∧ m ≤ unitsOfInfinity)
    (hn : -(unitsOfInfinity : Int) ≤ n ∧ n ≤ unitsOfInfinity) : extend m < extend n ↔ m < n := by
  have hpos := unitsOfInfinity_pos
  unfold extend
  split
  · split
    · simp only [lt_self_iff_false, false_iff]; omega
    · split
      · simp only [bot_lt_top, true_iff]; omega
      · simp only [WithBot.bot_lt_coe, true_iff]; omega
  · split
    · simp only [not_top_lt, false_iff]; omega
    · split
      · simp only [not_lt_bot, false_iff]; omega
      · split
        · have hlt : ((((m : ℚ) / unitsPerOne : ℚ) : WithTop ℚ) : ExtendedRat) < ⊤ :=
            WithBot.coe_lt_coe.2 (WithTop.coe_lt_top _)
          simp only [hlt, true_iff]
          omega
        · rw [WithBot.coe_lt_coe, WithTop.coe_lt_coe, div_lt_div_iff_of_pos_right unitsPerOne_cast_pos,
            Int.cast_lt]

theorem toExtended_eq {x : Binary64} (h : x.isNaN = false) : x.toExtended = extend x.signedUnits := by
  have hpos := unitsOfInfinity_pos
  have hle := units_le h
  unfold toExtended extend
  by_cases hf : x.isFinite = true
  · have hlt := (isFinite_iff_units h).1 hf
    have hbound : -(unitsOfInfinity : Int) < x.signedUnits ∧ x.signedUnits < unitsOfInfinity := by
      unfold signedUnits
      split <;> omega
    rw [if_pos hf, if_neg (by omega), if_neg (by omega), toRat_eq]
  · have hge : x.units = unitsOfInfinity := by
      rw [isFinite_iff_units h] at hf
      omega
    rw [if_neg hf]
    unfold signedUnits
    split
    · rw [if_pos (by omega)]
    · rw [if_neg (by omega), if_pos (by omega)]

/-! ## The total order of floats -/

/-- The place in the total order of the float that a number of units is rounded to. -/
def rankOfUnits (units : Int) : Int :=
  if units < 0 then -(roundUnits units.natAbs 1 : Int) - 1 else roundUnits units.natAbs 1

theorem rankOfUnits_mono {m n : Int} (h : m ≤ n) : rankOfUnits m ≤ rankOfUnits n := by
  unfold rankOfUnits
  split
  · split
    · have : roundUnits _ 1 ≤ roundUnits _ 1 := roundUnits_mono (show n.natAbs ≤ m.natAbs by omega)
      omega
    · omega
  · rw [if_neg (by omega)]
    have : roundUnits _ 1 ≤ roundUnits _ 1 := roundUnits_mono (show m.natAbs ≤ n.natAbs by omega)
    omega

theorem rank_eq {x : Binary64} (h : x.isNaN = false) (h0 : x.signedUnits ≠ 0) :
    x.rank = rankOfUnits x.signedUnits := by
  have hround := roundUnits_unitsOf (magnitude_le h)
  rw [← units_eq] at hround
  unfold rank rankOfUnits
  unfold signedUnits at *
  cases hx : x.negative
  · simp [hround]
  · simp only [hx, if_true] at h0 ⊢
    rw [if_pos (by omega), Int.natAbs_neg, Int.natAbs_natCast, hround]

theorem rank_ofInt_eq (i : Int) : (ofInt i).rank = rankOfUnits (i * unitsPerOne) := by
  have hpos := unitsPerOne_pos
  have hsign : i * unitsPerOne < 0 ↔ i < 0 := by
    constructor
    · intro h
      by_contra hn
      exact absurd (Int.mul_nonneg (Int.not_lt.1 hn) (Int.natCast_nonneg unitsPerOne)) (by omega)
    · intro h
      exact Int.mul_neg_of_neg_of_pos h (by omega)
  rw [rank_ofInt, rankOfUnits, Int.natAbs_mul, Int.natAbs_natCast]
  simp only [hsign, roundRatio]

/-- Floats that are neither NaNs nor zeros are ordered by what they denote. -/
theorem rank_lt_iff {x y : Binary64} (hx : x.isNaN = false) (hy : y.isNaN = false)
    (hx0 : x.signedUnits ≠ 0) (hy0 : y.signedUnits ≠ 0) :
    x.rank < y.rank ↔ x.signedUnits < y.signedUnits := by
  rw [rank_eq hx hx0, rank_eq hy hy0]
  constructor
  · intro h
    by_contra hn
    have := rankOfUnits_mono (Int.not_lt.1 hn)
    omega
  · intro h
    have hle := rankOfUnits_mono (Int.le_of_lt h)
    rcases Int.lt_or_eq_of_le hle with hlt | heq
    · exact hlt
    · rw [← rank_eq hx hx0, ← rank_eq hy hy0] at heq
      rw [rank_injective heq] at h
      omega

/-! ## Rounded integers -/

section
variable (i : Int64)

theorem magnitude_ofInt : (ofInt i.toInt).magnitude = roundRatio i.toInt.natAbs 1 :=
  magnitude_ofCode (roundRatio_lt _ _)

theorem negative_ofInt : (ofInt i.toInt).negative = decide (i.toInt < 0) :=
  negative_ofCode (roundRatio_lt _ _)

theorem isFinite_ofInt : (ofInt i.toInt).isFinite = true := by
  rw [isFinite, magnitude_ofInt, decide_eq_true_eq]
  exact roundRatio_word_lt i

theorem word_units_lt : i.toInt.natAbs * unitsPerOne < unitsOfInfinity := by
  by_contra hn
  have : roundUnits _ 1 ≤ roundUnits _ 1 := roundUnits_mono (Nat.not_lt.1 hn)
  rw [unitsOfInfinity, roundUnits_unitsOf (Nat.le_refl _)] at this
  exact Nat.not_le.2 (roundRatio_word_lt i) this

/-- Rounding a whole number of ones cuts off nothing or leaves whole ones. -/
theorem unitsPerOne_dvd_rounded {m : Nat} (h : roundRatio m 1 < infinityCode) :
    unitsPerOne ∣ unitsOf (roundRatio m 1) := by
  rw [roundRatio] at h ⊢
  rw [unitsOf_roundUnits h]
  generalize cutOf (m * unitsPerOne) = cut
  obtain ⟨e, hone⟩ : ∃ e, unitsPerOne = 2 ^ e := by
    unfold unitsPerOne
    generalize (1074 : Nat) = e
    exact ⟨e, rfl⟩
  rcases Nat.le_total cut e with hcut | hcut
  · obtain ⟨more, hmore⟩ := Nat.exists_eq_add_of_le hcut
    have hexact : m * unitsPerOne = m * 2 ^ more * 2 ^ cut := by
      rw [hone, hmore, Nat.pow_add]
      ring
    rw [hexact, divNearest_mul (Nat.two_pow_pos _), ← hexact]
    exact Nat.dvd_mul_left _ _
  · exact Nat.dvd_trans (hone ▸ Nat.pow_dvd_pow 2 hcut) (Nat.dvd_mul_left _ _)

/-- An integer of 64 bits is rounded to an integer, of at most `2 ^ 63`. -/
theorem units_ofInt : ∃ n, (ofInt i.toInt).units = n * unitsPerOne ∧ n ≤ 2 ^ 63 := by
  have hfinite := roundRatio_word_lt i
  have hi : i.toInt.natAbs ≤ 2 ^ 63 := by have := i.le_toInt; have := i.toInt_lt; omega
  rw [units_eq, magnitude_ofInt]
  generalize i.toInt.natAbs = m at *
  have hbound : unitsOf (roundRatio m 1) ≤ 2 ^ 63 * unitsPerOne := by
    have hlargest : unitsOf (roundRatio (2 ^ 63) 1) = 2 ^ 63 * unitsPerOne := by decide +kernel
    have hle : roundRatio m 1 ≤ roundRatio (2 ^ 63) 1 := roundUnits_mono (Nat.mul_le_mul_right _ hi)
    rw [← hlargest]
    by_contra hn
    exact Nat.not_lt.2 hle ((unitsOf_lt_iff (roundUnits_le _ _) (roundUnits_le _ _)).1 (Nat.not_le.1 hn))
  obtain ⟨n, hn⟩ := unitsPerOne_dvd_rounded hfinite
  rw [Nat.mul_comm] at hn
  refine ⟨n, hn, ?_⟩
  rw [hn] at hbound
  exact Nat.le_of_mul_le_mul_right hbound unitsPerOne_pos

/-- How far a float is from an integer, in units: as their magnitudes are, if they have one sign. -/
theorem gap_eq (j : Int) (y : Binary64) : (j * unitsPerOne - y.signedUnits).natAbs =
    if y.negative = decide (j < 0) then apart (j.natAbs * unitsPerOne) y.units
    else j.natAbs * unitsPerOne + y.units := by
  have hj : j * unitsPerOne = if j < 0 then -((j.natAbs * unitsPerOne : Nat) : Int)
      else (j.natAbs * unitsPerOne : Nat) := by
    push_cast
    split
    · rw [abs_of_neg (by omega)]
      ring
    · rw [abs_of_nonneg (by omega)]
  rw [hj]
  generalize j.natAbs * unitsPerOne = n
  unfold signedUnits apart
  by_cases hneg : j < 0 <;> cases hy : y.negative <;> simp [hneg] <;> omega

theorem distance_eq (j : Int) (y : Binary64) :
    |(j : ℚ) - y.toRat| = ((j * unitsPerOne - y.signedUnits).natAbs : ℚ) / unitsPerOne := by
  have hpos := unitsPerOne_cast_pos
  have hsub : (j : ℚ) - y.toRat = ((j * unitsPerOne - y.signedUnits : Int) : ℚ) / unitsPerOne := by
    rw [toRat_eq, Int.cast_sub, Int.cast_mul, Int.cast_natCast, sub_div, mul_div_cancel_right₀ _ hpos.ne']
  rw [hsub, abs_div, abs_of_pos hpos, Nat.cast_natAbs, Int.cast_abs]

/-- **Integers of 64 bits are rounded to the nearest float, a half to the even one.** -/
theorem nearestEven_ofInt : NearestEven i.toInt (ofInt i.toInt) := by
  have hpos := unitsPerOne_cast_pos
  have hself := gap_eq i.toInt (ofInt i.toInt)
  rw [if_pos (negative_ofInt i), units_eq, magnitude_ofInt, roundRatio] at hself
  have hnearest := roundUnits_nearest (roundRatio_word_lt i)
  have hzero := hnearest 0
  have hzero0 : unitsOf 0 = 0 := rfl
  have heven : roundUnits (i.toInt.natAbs * unitsPerOne) 1 % 2 = 0 → (ofInt i.toInt).fraction % 2 = 0 := by
    intro h
    rw [fraction, magnitude_ofInt, roundRatio, Nat.mod_mod_of_dvd _ (by decide)]
    exact h
  refine ⟨isFinite_ofInt i, ?_, ?_, ?_⟩
  · rw [negative_ofInt, decide_eq_true_eq]
    exact Int.cast_lt_zero.symm
  · intro y _
    rw [distance_eq, distance_eq, div_le_div_iff_of_pos_right hpos, Nat.cast_le, hself, gap_eq]
    split
    · exact (hnearest y.magnitude).1
    · unfold apart at *
      omega
  · intro y _ heq
    rw [distance_eq, distance_eq, div_left_inj' hpos.ne', Nat.cast_inj, hself, gap_eq] at heq
    rw [toRat_eq, toRat_eq]
    split at heq
    · rename_i hsign
      rcases (hnearest y.magnitude).2 heq with hsame | he
      · left
        rw [signedUnits, signedUnits, units_eq, units_eq, hsame, hsign, negative_ofInt, magnitude_ofInt,
          roundRatio]
      · exact .inr (heven he)
    · -- a float of the other sign is no nearer than zero, so it is zero itself
      have hy : y.units = 0 := by unfold apart at *; omega
      rcases hzero.2 (by unfold apart at *; omega) with hsame | he
      · left
        have hx : (ofInt i.toInt).units = 0 := by rw [units_eq, magnitude_ofInt, roundRatio, ← hsame, hzero0]
        rw [signedUnits_eq_zero_iff.2 hx, signedUnits_eq_zero_iff.2 hy]
      · exact .inr (heven he)

end

end Binary64
end IndexedStore
