import IndexedStore.Binary64.Rounding
import Mathlib.Data.Nat.Log
import Mathlib.Tactic.Ring

/-!
# Rounding is monotone

The order of keys compares an integer with a float by rounding the integer. That this is an order at
all rests on one fact, `ofInt_rank_mono`: a larger integer never rounds to a smaller float. Inside one
binade this is monotonicity of division; `roundUnits` changes binade only where the quotient has
reached the top of the lower one, whose largest code is the smallest of the next.
-/

namespace IndexedStore.Binary64

/-! ## Nearest quotients -/

theorem div_le_divNearest (num den : Nat) : num / den ≤ divNearest num den := by
  simp only [divNearest]; grind

theorem divNearest_le_succ (num den : Nat) : divNearest num den ≤ num / den + 1 := by
  simp only [divNearest]; grind

theorem divNearest_mono {den : Nat} {m n : Nat} (h : m ≤ n) : divNearest m den ≤ divNearest n den := by
  rcases Nat.lt_or_ge (m / den) (n / den) with hlt | hge
  · calc divNearest m den ≤ m / den + 1 := divNearest_le_succ m den
      _ ≤ n / den := hlt
      _ ≤ divNearest n den := div_le_divNearest n den
  · have hq : m / den = n / den := Nat.le_antisymm (Nat.div_le_div_right h) hge
    have hr : m % den ≤ n % den := by
      have hm := Nat.div_add_mod m den
      have hn := Nat.div_add_mod n den
      rw [hq] at hm; omega
    simp only [divNearest, hq]
    grind

/-! ## Codes of magnitudes -/

/-- The number of bits that `roundUnits` cuts off a quotient. -/
def cutOf (whole : Nat) : Nat := if whole < 2 * binade then 0 else whole.log2 - 52

theorem two_mul_binade : 2 * binade = 2 ^ 53 := by decide

theorem cutOf_mono {m n : Nat} (h : m ≤ n) : cutOf m ≤ cutOf n := by
  unfold cutOf
  split
  · exact Nat.zero_le _
  · rename_i hm
    have hn : ¬ n < 2 * binade := by omega
    rw [if_neg hn, Nat.log2_eq_log_two, Nat.log2_eq_log_two]
    have := Nat.log_mono_right (b := 2) h
    omega

/-- What is left after the cut has at most fifty-three bits. -/
theorem div_cut_lt (whole : Nat) : whole / 2 ^ cutOf whole < 2 * binade := by
  unfold cutOf
  split
  · simpa
  · rename_i h
    rw [two_mul_binade, Nat.div_lt_iff_lt_mul (Nat.two_pow_pos _), ← Nat.pow_add]
    exact Nat.lt_of_lt_of_le Nat.lt_log2_self (Nat.pow_le_pow_right (by decide) (by omega))

/-- After a cut there are exactly fifty-three bits. -/
theorem binade_le_div_cut {whole : Nat} (h : 0 < cutOf whole) : binade ≤ whole / 2 ^ cutOf whole := by
  unfold cutOf at h ⊢
  split at h
  · omega
  · rename_i hw
    rw [if_neg hw, Nat.le_div_iff_mul_le (Nat.two_pow_pos _)]
    have hb : binade = 2 ^ 52 := by decide
    rw [hb, ← Nat.pow_add, show 52 + (whole.log2 - 52) = whole.log2 by omega]
    exact Nat.log2_self_le (by rintro rfl; simp at h)

theorem roundUnits_eq (num den : Nat) :
    roundUnits num den =
      min infinityCode (cutOf (num / den) * binade + divNearest num (den * 2 ^ cutOf (num / den))) := rfl

theorem roundUnits_mono {den : Nat} {m n : Nat} (h : m ≤ n) : roundUnits m den ≤ roundUnits n den := by
  rw [roundUnits_eq, roundUnits_eq]
  apply min_le_min_left _
  have hw : m / den ≤ n / den := Nat.div_le_div_right h
  rcases Nat.eq_or_lt_of_le (cutOf_mono hw) with he | hlt
  · rw [he]
    exact Nat.add_le_add_left (divNearest_mono h) _
  · -- the lower code ends where the next binade begins
    have hlow : divNearest m (den * 2 ^ cutOf (m / den)) ≤ 2 * binade := by
      have h1 := divNearest_le_succ m (den * 2 ^ cutOf (m / den))
      have h2 := div_cut_lt (m / den)
      rw [Nat.div_div_eq_div_mul] at h2
      omega
    have hhigh : binade ≤ divNearest n (den * 2 ^ cutOf (n / den)) := by
      have h1 := binade_le_div_cut (show 0 < cutOf (n / den) by omega)
      rw [Nat.div_div_eq_div_mul] at h1
      exact Nat.le_trans h1 (div_le_divNearest _ _)
    calc cutOf (m / den) * binade + divNearest m (den * 2 ^ cutOf (m / den))
        ≤ cutOf (m / den) * binade + 2 * binade := Nat.add_le_add_left hlow _
      _ = (cutOf (m / den) + 1) * binade + binade := by ring
      _ ≤ cutOf (n / den) * binade + binade :=
        Nat.add_le_add_right (Nat.mul_le_mul_right _ hlt) _
      _ ≤ _ := Nat.add_le_add_left hhigh _

theorem roundUnits_le (num den : Nat) : roundUnits num den ≤ infinityCode := min_le_left _ _

/-! ## The rank of a rounded integer -/

theorem bits_ofCode {negative : Bool} {code : Nat} (h : code < signWeight) :
    (ofCode negative code).bits.toNat = if negative then signWeight + code else code := by
  simp only [ofCode]
  rw [UInt64.toNat_ofNat_of_lt']
  unfold signWeight at *
  split <;> simp [UInt64.size] <;> omega

theorem magnitude_ofCode {negative : Bool} {code : Nat} (h : code < signWeight) :
    (ofCode negative code).magnitude = code := by
  cases negative <;> simp [magnitude, bits_ofCode h, Nat.mod_eq_of_lt h, Nat.add_mod_left]

theorem negative_ofCode {negative : Bool} {code : Nat} (h : code < signWeight) :
    (ofCode negative code).negative = negative := by
  cases negative <;> simp [Binary64.negative, bits_ofCode h, h]

theorem rank_ofCode {negative : Bool} {code : Nat} (h : code < signWeight) :
    (ofCode negative code).rank = if negative then -(code : Int) - 1 else code := by
  rw [rank, magnitude_ofCode h, negative_ofCode h]

/-- The code of a rounded integer fits beside the sign. -/
theorem roundRatio_lt (num den : Nat) : roundRatio num den < signWeight :=
  Nat.lt_of_le_of_lt (roundUnits_le _ _) (by decide)

/-- Integers of 64 bits are rounded to finite numbers. -/
theorem roundRatio_word_lt (i : Int64) : roundRatio i.toInt.natAbs 1 < infinityCode := by
  have hi : i.toInt.natAbs ≤ 2 ^ 63 := by have := i.le_toInt; have := i.toInt_lt; omega
  exact Nat.lt_of_le_of_lt (roundUnits_mono (Nat.mul_le_mul_right _ hi)) (by decide +kernel)

theorem rank_ofInt (i : Int) :
    (ofInt i).rank =
      if i < 0 then -(roundRatio i.natAbs 1 : Int) - 1 else (roundRatio i.natAbs 1 : Int) := by
  rw [ofInt, ofRatio, rank_ofCode (roundRatio_lt _ _)]
  by_cases hi : i < 0 <;> simp [hi]

/-- **Rounding is monotone**: a larger integer never rounds to a smaller float. -/
theorem ofInt_rank_mono {i j : Int} (h : i ≤ j) : (ofInt i).rank ≤ (ofInt j).rank := by
  have mono : ∀ {m n : Nat}, m ≤ n → roundRatio m 1 ≤ roundRatio n 1 := fun hmn =>
    roundUnits_mono (Nat.mul_le_mul_right _ hmn)
  rw [rank_ofInt, rank_ofInt]
  by_cases hi : i < 0 <;> by_cases hj : j < 0
  · have := mono (show j.natAbs ≤ i.natAbs by omega)
    simp only [hi, hj, if_true]; omega
  · simp only [hi, hj, if_true, if_false]; omega
  · omega
  · have := mono (show i.natAbs ≤ j.natAbs by omega)
    simp only [hi, hj, if_false]; omega

end IndexedStore.Binary64
