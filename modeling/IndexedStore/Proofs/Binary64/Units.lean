import IndexedStore.Proofs.Rounding

/-!
# Magnitude codes and units

A magnitude code stands for a whole number of units (`unitsOf`), and `roundUnits` goes back: it gives each
code for its own units (`roundUnits_unitsOf`), and for any other number of units the code whose units are
nearest, of two equally near ones the even (`roundUnits_nearest`). Both rest on `unitsOf_mantissa`: a code is
a number of binades and a mantissa, its units are the mantissa times a power of two, and a mantissa that has
run over the top of its binade is the first of the next.
-/

namespace IndexedStore.Binary64

/-- The units that a magnitude code stands for. -/
def unitsOf (code : Nat) : Nat :=
  if code / binade = 0 then code % binade else (binade + code % binade) * 2 ^ (code / binade - 1)

theorem units_eq (x : Binary64) : x.units = unitsOf x.magnitude := rfl

theorem binade_pos : 0 < binade := by decide

theorem unitsPerOne_pos : 0 < unitsPerOne := by
  unfold unitsPerOne
  generalize 1074 = e
  exact Nat.pow_pos Nat.two_pos

/-- A mantissa in its binade, or just over the top of it. -/
theorem unitsOf_mantissa {cut mantissa : Nat} (htop : mantissa ≤ 2 * binade)
    (hlow : cut = 0 ∨ binade ≤ mantissa) : unitsOf (cut * binade + mantissa) = mantissa * 2 ^ cut := by
  have hpos := binade_pos
  unfold unitsOf
  rcases Nat.lt_or_ge mantissa binade with hm | hm
  · obtain rfl : cut = 0 := by omega
    simp [Nat.div_eq_of_lt hm, Nat.mod_eq_of_lt hm]
  · rcases Nat.eq_or_lt_of_le htop with rfl | hm'
    · have hcode : cut * binade + 2 * binade = (cut + 2) * binade := by ring
      rw [hcode, Nat.mul_div_cancel _ hpos, Nat.mul_mod_left, if_neg (by omega)]
      have : cut + 2 - 1 = cut + 1 := by omega
      rw [this]
      ring
    · obtain ⟨rest, rfl⟩ := Nat.exists_eq_add_of_le hm
      have hrest : rest < binade := by omega
      have hcode : cut * binade + (binade + rest) = rest + (cut + 1) * binade := by ring
      rw [hcode, Nat.add_mul_div_right _ _ hpos, Nat.add_mul_mod_self_right, Nat.div_eq_of_lt hrest,
        Nat.mod_eq_of_lt hrest, if_neg (by omega)]
      simp

/-- Every code is a cut and a mantissa. -/
theorem exists_mantissa (code : Nat) : ∃ cut mantissa, code = cut * binade + mantissa ∧
    mantissa < 2 * binade ∧ (cut = 0 ∨ binade ≤ mantissa) ∧ cut = code / binade - 1 := by
  have hmod := Nat.mod_lt code binade_pos
  have hdiv := Nat.div_add_mod code binade
  rcases Nat.eq_zero_or_pos (code / binade) with h | h
  · refine ⟨0, code % binade, ?_, by omega, .inl rfl, by omega⟩
    rw [h] at hdiv
    omega
  · refine ⟨code / binade - 1, binade + code % binade, ?_, by omega, .inr (by omega), rfl⟩
    obtain ⟨cut, hcut⟩ := Nat.exists_eq_add_of_lt h
    rw [hcut] at hdiv ⊢
    have : binade * (0 + cut + 1) = cut * binade + binade := by ring
    have hsub : 0 + cut + 1 - 1 = cut := by omega
    rw [hsub]
    omega

/-! ## A code is rounded from its own units -/

theorem divNearest_mul {den : Nat} (h : 0 < den) (m : Nat) : divNearest (m * den) den = m := by
  simp [divNearest, Nat.mul_div_cancel _ h, h]

theorem roundUnits_one (n : Nat) :
    roundUnits n 1 = min infinityCode (cutOf n * binade + divNearest n (2 ^ cutOf n)) := by
  rw [roundUnits_eq, Nat.div_one, Nat.one_mul]

/-- What is cut off a number of units within a binade. -/
theorem cutOf_eq {cut whole : Nat} (hlow : cut = 0 ∨ binade * 2 ^ cut ≤ whole) (htop : whole < 2 * binade * 2 ^ cut) :
    cutOf whole = cut := by
  have hb : binade = 2 ^ 52 := by decide
  unfold cutOf
  rcases Nat.eq_zero_or_pos cut with rfl | hcut
  · rw [if_pos (by omega)]
  · have hlower : 2 ^ (52 + cut) ≤ whole := by
      rw [Nat.pow_add, ← hb]
      omega
    have hupper : whole < 2 ^ (52 + cut + 1) := by
      have : 2 ^ (52 + cut + 1) = 2 * binade * 2 ^ cut := by rw [hb]; ring
      omega
    have hlog : whole.log2 = 52 + cut := by
      rw [Nat.log2_eq_iff (by have := Nat.two_pow_pos (52 + cut); omega)]
      exact ⟨hlower, hupper⟩
    have hlarge : 2 * binade ≤ whole := by
      have : 2 * binade = 2 ^ 53 := two_mul_binade
      have := Nat.pow_le_pow_right (show 0 < 2 by decide) (show 53 ≤ 52 + cut by omega)
      omega
    rw [if_neg (by omega), hlog]
    omega

/-- What is cut off a mantissa in its place. -/
theorem cutOf_mantissa {cut mantissa : Nat} (htop : mantissa < 2 * binade)
    (hlow : cut = 0 ∨ binade ≤ mantissa) : cutOf (mantissa * 2 ^ cut) = cut :=
  cutOf_eq (hlow.imp_right fun h => Nat.mul_le_mul_right _ h) (Nat.mul_lt_mul_of_pos_right htop (Nat.two_pow_pos _))

/-- Each code up to that of infinity is rounded from its own units. -/
theorem roundUnits_unitsOf {code : Nat} (h : code ≤ infinityCode) : roundUnits (unitsOf code) 1 = code := by
  obtain ⟨cut, mantissa, rfl, htop, hlow, -⟩ := exists_mantissa code
  rw [unitsOf_mantissa (by omega) hlow, roundUnits_one, cutOf_mantissa htop hlow,
    divNearest_mul (Nat.two_pow_pos _)]
  omega

theorem unitsOf_lt_iff {c d : Nat} (hc : c ≤ infinityCode) (hd : d ≤ infinityCode) :
    unitsOf c < unitsOf d ↔ c < d := by
  constructor
  · intro h
    by_contra hn
    have : roundUnits _ 1 ≤ roundUnits _ 1 := roundUnits_mono (Nat.le_of_lt h)
    rw [roundUnits_unitsOf hc, roundUnits_unitsOf hd] at this
    obtain rfl : c = d := by omega
    omega
  · intro h
    by_contra hn
    have : roundUnits _ 1 ≤ roundUnits _ 1 := roundUnits_mono (Nat.not_lt.1 hn)
    rw [roundUnits_unitsOf hc, roundUnits_unitsOf hd] at this
    omega

/-- The units of a rounded number, below infinity. -/
theorem unitsOf_roundUnits {n : Nat} (h : roundUnits n 1 < infinityCode) :
    unitsOf (roundUnits n 1) = divNearest n (2 ^ cutOf n) * 2 ^ cutOf n := by
  rw [roundUnits_one] at h ⊢
  rw [min_eq_right (by omega)]
  have hle := divNearest_le_succ n (2 ^ cutOf n)
  have hge := div_le_divNearest n (2 ^ cutOf n)
  have htop := div_cut_lt n
  refine unitsOf_mantissa (by omega) ?_
  rcases Nat.eq_zero_or_pos (cutOf n) with hcut | hcut
  · exact .inl hcut
  · exact .inr (Nat.le_trans (binade_le_div_cut hcut) hge)

/-! ## Rounding goes to the nearest code, a half to the even one -/

/-- How far two numbers of units are apart. -/
def apart (m n : Nat) : Nat := ((m : Int) - n).natAbs

theorem divNearest_nearest {den : Nat} (h : 0 < den) (num m : Nat) :
    apart num (divNearest num den * den) ≤ apart num (m * den) ∧
      (apart num (divNearest num den * den) = apart num (m * den) →
        m = divNearest num den ∨ divNearest num den % 2 = 0) := by
  have hnum := Nat.div_add_mod' num den
  have hrest := Nat.mod_lt num h
  have hplace : m < num / den ∧ m * den + den ≤ num / den * den ∨ m = num / den ∨
      m = num / den + 1 ∨ num / den + 1 < m ∧ (num / den + 1) * den + den ≤ m * den := by
    have step : ∀ a b : Nat, a < b → a * den + den ≤ b * den := by
      intro a b hab
      rw [← Nat.succ_mul]
      exact Nat.mul_le_mul_right _ hab
    rcases Nat.lt_trichotomy m (num / den) with hm | hm | hm
    · exact .inl ⟨hm, step _ _ hm⟩
    · exact .inr (.inl hm)
    · rcases Nat.eq_or_lt_of_le (Nat.succ_le_of_lt hm) with hm' | hm'
      · exact .inr (.inr (.inl hm'.symm))
      · exact .inr (.inr (.inr ⟨hm', step _ _ hm'⟩))
  have hnext : (num / den + 1) * den = num / den * den + den := Nat.succ_mul _ _
  simp only [divNearest, apart]
  generalize num / den = low at *
  split
  · rcases hplace with hp | rfl | rfl | hp <;> omega
  · split
    · split
      · rcases hplace with hp | rfl | rfl | hp <;> omega
      · rcases hplace with hp | rfl | rfl | hp <;> omega
    · rcases hplace with hp | rfl | rfl | hp <;> omega

/-- No finite code has units nearer to a number than the code it is rounded to, and where another has units as
near, the code it is rounded to is even. -/
theorem roundUnits_nearest {n : Nat} (h : roundUnits n 1 < infinityCode) (code : Nat) :
    apart n (unitsOf (roundUnits n 1)) ≤ apart n (unitsOf code) ∧
      (apart n (unitsOf (roundUnits n 1)) = apart n (unitsOf code) →
        unitsOf code = unitsOf (roundUnits n 1) ∨ roundUnits n 1 % 2 = 0) := by
  have hpow := Nat.two_pow_pos (cutOf n)
  have hcode : roundUnits n 1 = cutOf n * binade + divNearest n (2 ^ cutOf n) := by
    rw [roundUnits_one] at h ⊢
    omega
  have heven : divNearest n (2 ^ cutOf n) % 2 = 0 → roundUnits n 1 % 2 = 0 := by
    have hb : binade = 2 * 2 ^ 51 := by decide
    intro hq
    rw [hcode, hb, Nat.mul_left_comm]
    omega
  rw [unitsOf_roundUnits h]
  obtain ⟨cut, mantissa, rfl, htop, hlow, -⟩ := exists_mantissa code
  rw [unitsOf_mantissa (by omega) hlow]
  rcases Nat.lt_or_ge cut (cutOf n) with hcut | hcut
  · -- the other code lies below the binade of the number, whose first code is a multiple too
    have hfirst := (divNearest_nearest hpow n binade).1
    have hnum : binade * 2 ^ cutOf n ≤ n := by
      rw [← Nat.le_div_iff_mul_le hpow]
      exact binade_le_div_cut (by omega)
    have hbelow : mantissa * 2 ^ cut < binade * 2 ^ cutOf n := by
      have hdouble : 2 * 2 ^ cut ≤ 2 ^ cutOf n := by
        rw [Nat.mul_comm, ← Nat.pow_succ]
        exact Nat.pow_le_pow_right (by decide) hcut
      calc mantissa * 2 ^ cut < 2 * binade * 2 ^ cut := Nat.mul_lt_mul_of_pos_right htop (Nat.two_pow_pos _)
        _ = binade * (2 * 2 ^ cut) := by ring
        _ ≤ binade * 2 ^ cutOf n := Nat.mul_le_mul_left _ hdouble
    unfold apart at *
    omega
  · -- the other code is a multiple of the same power
    obtain ⟨more, rfl⟩ := Nat.exists_eq_add_of_le hcut
    have hmul : mantissa * 2 ^ (cutOf n + more) = mantissa * 2 ^ more * 2 ^ cutOf n := by
      rw [Nat.pow_add]
      ring
    rw [hmul]
    obtain ⟨hnear, htie⟩ := divNearest_nearest hpow n (mantissa * 2 ^ more)
    refine ⟨hnear, fun heq => ?_⟩
    rcases htie heq with hsame | hq
    · exact .inl (by rw [hsame])
    · exact .inr (heven hq)

end IndexedStore.Binary64
