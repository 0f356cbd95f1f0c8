import IndexedStore.Binary64.Decimal
import IndexedStore.Proofs.Binary64.Units

/-!
# Decimals that read back

`readBack` bounds the reals that round to a number, and every quotient within the bounds does
(`roundUnits_of_within`). A power of ten that is small beside the spacing of binary64 numbers has a multiple within
any bounds, so the search for the shortest digits comes to an end (`shortestDigits_spec`).
-/

namespace IndexedStore.Binary64

/-! ## What rounds to a number -/

/-- A quotient is rounded to a number at most a half away from it, to an odd one if it is nearer than that. -/
theorem divNearest_eq {num den m : Nat} (hden : 0 < den) (hlow : 2 * (m * den) ≤ 2 * num + den)
    (hhigh : 2 * num ≤ 2 * (m * den) + den)
    (htie : m % 2 = 1 → 2 * (m * den) < 2 * num + den ∧ 2 * num < 2 * (m * den) + den) : divNearest num den = m := by
  have hnum := Nat.div_add_mod' num den
  have hrest := Nat.mod_lt num hden
  have hm : m = num / den ∨ m = num / den + 1 := by
    have hle : m < num / den + 2 := Nat.lt_of_mul_lt_mul_right (a := den) (by
      rw [Nat.add_mul]
      omega)
    have hge : num / den < m + 1 := Nat.lt_of_mul_lt_mul_right (a := den) (by
      rw [Nat.add_mul, Nat.one_mul]
      omega)
    omega
  have hnext : (num / den + 1) * den = num / den * den + den := Nat.succ_mul _ _
  simp only [divNearest]
  generalize num / den = low at *
  rcases hm with rfl | rfl
  · split
    · rfl
    · split
      · split
        · rfl
        · omega
      · omega
  · split
    · omega
    · split
      · split
        · omega
        · rfl
      · rfl

/-- A quotient in the binade of a mantissa is rounded to the mantissa if that is nearest. -/
theorem roundUnits_eq_mantissa {num den cut m : Nat} (hden : 0 < den) (htop : m < 2 * binade)
    (hbinade : cut = 0 ∨ binade * 2 ^ cut ≤ num / den)
    (hlow : 2 * (m * (2 ^ cut * den)) ≤ 2 * num + 2 ^ cut * den)
    (hhigh : 2 * num ≤ 2 * (m * (2 ^ cut * den)) + 2 ^ cut * den)
    (htie : m % 2 = 1 → 2 * (m * (2 ^ cut * den)) < 2 * num + 2 ^ cut * den ∧
      2 * num < 2 * (m * (2 ^ cut * den)) + 2 ^ cut * den) :
    roundUnits num den = min infinityCode (cut * binade + m) := by
  have hpos : 0 < 2 ^ cut * den := Nat.mul_pos (Nat.two_pow_pos _) hden
  have hcut : cutOf (num / den) = cut := by
    refine cutOf_eq hbinade ((Nat.div_lt_iff_lt_mul hden).2 ?_)
    calc num < (m + 1) * (2 ^ cut * den) := by
          rw [Nat.succ_mul]
          omega
      _ ≤ 2 * binade * (2 ^ cut * den) := Nat.mul_le_mul_right _ htop
      _ = 2 * binade * 2 ^ cut * den := (Nat.mul_assoc _ _ _).symm
  rw [roundUnits_eq, hcut, Nat.mul_comm den, divNearest_eq hpos hlow hhigh htie]

/-- A quotient just below a binade is rounded up to its first number, from which it is half as far as the numbers
below are apart. -/
theorem roundUnits_eq_bottom {num den cut : Nat} (hden : 0 < den)
    (hlow : 4 * (binade * (2 ^ cut * den)) ≤ 2 * num + 2 ^ cut * den)
    (hhigh : num < 2 * (binade * (2 ^ cut * den))) :
    roundUnits num den = min infinityCode ((cut + 1) * binade + binade) := by
  have hpos : 0 < 2 ^ cut * den := Nat.mul_pos (Nat.two_pow_pos _) hden
  have hone : 2 ^ cut * den ≤ binade * (2 ^ cut * den) := Nat.le_mul_of_pos_left _ binade_pos
  have hcut : cutOf (num / den) = cut := by
    refine cutOf_eq (.inr ((Nat.le_div_iff_mul_le hden).2 ?_)) ((Nat.div_lt_iff_lt_mul hden).2 ?_)
    · rw [Nat.mul_assoc]
      omega
    · rw [Nat.mul_assoc, Nat.mul_assoc]
      omega
  have hnear : divNearest num (2 ^ cut * den) = 2 * binade := by
    refine divNearest_eq hpos ?_ ?_ fun hodd => absurd hodd (by simp)
    · rw [Nat.mul_assoc]
      omega
    · rw [Nat.mul_assoc]
      omega
  have hnext : cut * binade + 2 * binade = (cut + 1) * binade + binade := by ring
  rw [roundUnits_eq, hcut, Nat.mul_comm den, hnear, hnext]

/-- A quotient of units is within the bounds of `r`. -/
structure ReadBack.Within (r : ReadBack) (num den : Nat) : Prop where
  low : r.low * den ≤ 4 * num
  high : 4 * num ≤ r.high * den
  inside : r.closed = false → r.low * den < 4 * num ∧ 4 * num < r.high * den

/-- The bounds of a number with its mantissa: half the spacing above it, and half or, at the bottom of a binade but the
first, a quarter of it below. -/
theorem exists_bounds (x : Binary64) : ∃ cut mantissa, x.magnitude = cut * binade + mantissa ∧ mantissa < 2 * binade ∧
    (cut = 0 ∨ binade ≤ mantissa) ∧ x.units = mantissa * 2 ^ cut ∧ x.spacing = 2 ^ cut ∧
      x.readBack.closed = (mantissa % 2 == 0) ∧
      x.readBack.low = 4 * (mantissa * 2 ^ cut) - (if mantissa = binade ∧ 0 < cut then 2 ^ cut else 2 * 2 ^ cut) ∧
      x.readBack.high = 4 * (mantissa * 2 ^ cut) + 2 * 2 ^ cut := by
  obtain ⟨cut, mantissa, hcode, htop, hlow, hcut⟩ := exists_mantissa x.magnitude
  have hunits : x.units = mantissa * 2 ^ cut := by
    rw [units_eq, hcode]
    exact unitsOf_mantissa (Nat.le_of_lt htop) hlow
  have hspacing : x.spacing = 2 ^ cut := by
    rw [spacing, exponentField, ← hcut]
    rfl
  have heven : x.magnitude % 2 = mantissa % 2 := by
    unfold binade at hcode
    omega
  have hbottom : x.fraction = 0 ∧ 1 < x.exponentField ↔ mantissa = binade ∧ 0 < cut := by
    unfold fraction exponentField
    unfold binade at *
    omega
  refine ⟨cut, mantissa, hcode, htop, hlow, hunits, hspacing, ?_, ?_, ?_⟩
  · rw [readBack, heven]
  · simp only [readBack, hunits, hspacing, hbottom]
  · rw [readBack, hunits, hspacing]

/-- **Every quotient within the bounds of a finite number is rounded to it.** -/
theorem roundUnits_of_within {x : Binary64} (hx : x.isFinite = true) {num den : Nat} (hden : 0 < den)
    (h : x.readBack.Within num den) : roundUnits num den = x.magnitude := by
  obtain ⟨cut, m, hcode, htop, hbinade, -, -, hclosed, hlow, hhigh⟩ := exists_bounds x
  have hfinite : min infinityCode (cut * binade + m) = cut * binade + m :=
    min_eq_right (Nat.le_of_lt (hcode ▸ of_decide_eq_true hx))
  obtain ⟨hlowNum, hhighNum, hinside⟩ := h
  have hodd : m % 2 = 1 → x.readBack.low * den < 4 * num ∧ 4 * num < x.readBack.high * den := fun hm =>
    hinside (by simp [hclosed, hm])
  have hupper : x.readBack.high * den = 4 * (m * (2 ^ cut * den)) + 2 * (2 ^ cut * den) := by rw [hhigh]; ring
  have hlower : 4 * (m * (2 ^ cut * den)) ≤ x.readBack.low * den + 2 * (2 ^ cut * den) := by
    calc 4 * (m * (2 ^ cut * den)) = 4 * (m * 2 ^ cut) * den := by ring
      _ ≤ (x.readBack.low + 2 * 2 ^ cut) * den := by
        refine Nat.mul_le_mul_right _ ?_
        rw [hlow]
        split <;> omega
      _ = x.readBack.low * den + 2 * (2 ^ cut * den) := by ring
  rw [hcode]
  by_cases hsame : cut = 0 ∨ binade * 2 ^ cut ≤ num / den
  · rw [roundUnits_eq_mantissa hden htop hsame (by omega) (by omega) (by omega), hfinite]
  · -- below its binade only the first number of it is so near
    obtain ⟨hcutNe, hless⟩ := not_or.1 hsame
    obtain ⟨cut, rfl⟩ := Nat.exists_eq_add_one_of_ne_zero hcutNe
    have hdouble : 2 ^ (cut + 1) * den = 2 * (2 ^ cut * den) := by ring
    have hnum : num < 2 * (binade * (2 ^ cut * den)) := by
      rw [Nat.not_le, Nat.div_lt_iff_lt_mul hden] at hless
      calc num < binade * 2 ^ (cut + 1) * den := hless
        _ = 2 * (binade * (2 ^ cut * den)) := by ring
    have hbottom : m = binade := by
      refine Nat.le_antisymm (Nat.le_of_lt_succ ?_) (hbinade.resolve_left hcutNe)
      refine Nat.lt_of_mul_lt_mul_right (a := 2 ^ cut * den) ?_
      rw [hdouble, Nat.mul_left_comm m] at hlower
      rw [Nat.succ_mul]
      omega
    subst hbottom
    have hquarter : 8 * (binade * (2 ^ cut * den)) ≤ x.readBack.low * den + 2 * (2 ^ cut * den) := by
      calc 8 * (binade * (2 ^ cut * den)) = 4 * (binade * 2 ^ (cut + 1)) * den := by ring
        _ ≤ (x.readBack.low + 2 ^ (cut + 1)) * den := by
          refine Nat.mul_le_mul_right _ ?_
          rw [hlow, if_pos ⟨rfl, Nat.succ_pos _⟩]
          omega
        _ = x.readBack.low * den + 2 * (2 ^ cut * den) := by ring
    rw [roundUnits_eq_bottom hden (by omega) hnum, hfinite]

/-! ## The search for the shortest digits -/

theorem ReadBack.within_iff {r : ReadBack} {num den : Nat} : r.Within num den ↔
    if r.closed then r.low * den ≤ 4 * num ∧ 4 * num ≤ r.high * den
    else r.low * den < 4 * num ∧ 4 * num < r.high * den := by
  constructor
  · intro h
    split
    · exact ⟨h.low, h.high⟩
    · rename_i hopen
      exact h.inside (by simpa using hopen)
  · intro h
    split at h
    · rename_i hclosed
      exact ⟨h.1, h.2, fun hopen => by simp [hclosed] at hopen⟩
    · exact ⟨Nat.le_of_lt h.1, Nat.le_of_lt h.2, fun _ => h⟩

theorem ReadBack.holds_iff {r : ReadBack} {digits : Nat} {scale : Int} : r.holds digits scale = true ↔
    r.Within (digits * Nat.pow 10 scale.toNat * unitsPerOne) (Nat.pow 10 (-scale).toNat) := by
  rw [within_iff, holds, Nat.mul_left_comm _ 4]
  split <;> exact decide_eq_true_iff

/-- What is found on a grid is among the reals of `r`. -/
theorem ReadBack.holds_of_onGrid? {r : ReadBack} {digits : Nat} {scale : Int} (h : r.onGrid? scale = some digits) :
    r.holds digits scale = true := by
  unfold onGrid? at h
  simp only at h
  split at h
  · rename_i hbelow habove
    split at h
    · cases h
      exact hbelow
    · cases h
      exact habove
  · rename_i hbelow _
    cases h
    exact hbelow
  · rename_i _ habove
    cases h
    exact habove
  · cases h

theorem readBack_lt {x : Binary64} (hx : x.magnitude ≠ 0) : 0 < x.readBack.low ∧ x.readBack.low < x.readBack.value ∧
    x.readBack.high = x.readBack.value + 2 * x.spacing := by
  obtain ⟨cut, m, hcode, -, hbinade, hunits, hspacing, -, hlow, hhigh⟩ := exists_bounds x
  have hpos := Nat.two_pow_pos cut
  have hm : 2 ^ cut ≤ m * 2 ^ cut := by
    refine Nat.le_mul_of_pos_left _ ?_
    have := binade_pos
    rcases hbinade with rfl | hbinade <;> omega
  have hvalue : x.readBack.value = 4 * (m * 2 ^ cut) := congrArg (4 * ·) hunits
  rw [hlow, hhigh, hvalue, hspacing]
  split <;> omega

/-- A point strictly between the bounds is among the reals, whether or not the bounds are. -/
theorem ReadBack.holds_of_lt {r : ReadBack} {digits : Nat} {scale : Int}
    (hlow : r.low * Nat.pow 10 (-scale).toNat < digits * (Nat.pow 10 scale.toNat * (4 * unitsPerOne)))
    (hhigh : digits * (Nat.pow 10 scale.toNat * (4 * unitsPerOne)) < r.high * Nat.pow 10 (-scale).toNat) :
    r.holds digits scale = true := by
  have hpoint : digits * (Nat.pow 10 scale.toNat * (4 * unitsPerOne)) =
      4 * (digits * Nat.pow 10 scale.toNat * unitsPerOne) := by
    rw [Nat.mul_left_comm _ 4, Nat.mul_left_comm _ 4, Nat.mul_assoc]
  rw [hpoint] at hlow hhigh
  exact holds_iff.2 ⟨Nat.le_of_lt hlow, Nat.le_of_lt hhigh, fun _ => ⟨hlow, hhigh⟩⟩

/-- Between bounds that lie on either side of a value, and as far above it as the grid is wide, is one of the two
points of the grid beside the value. -/
theorem exists_between {low value high one : Nat} (hone : 0 < one) (hlow : low < value) (hhigh : value + one ≤ high) :
    ∃ point, (point = value / one ∨ point = value / one + 1) ∧ low < point * one ∧ point * one < high := by
  have hvalue := Nat.div_add_mod' value one
  have hrest := Nat.mod_lt value hone
  have hnext : (value / one + 1) * one = value / one * one + one := Nat.succ_mul _ _
  rcases Nat.eq_zero_or_pos (value % one) with hzero | hpos
  · exact ⟨_, .inl rfl, by omega, by omega⟩
  · exact ⟨_, .inr rfl, by omega, by omega⟩

/-- A grid as fine as the spacing has a point among the reals. -/
theorem onGrid?_isSome {x : Binary64} (hx : x.magnitude ≠ 0) {scale : Int}
    (hfine : Nat.pow 10 scale.toNat * (4 * unitsPerOne) ≤ 2 * x.spacing * Nat.pow 10 (-scale).toNat) :
    (x.readBack.onGrid? scale).isSome = true := by
  obtain ⟨-, hlow, hhigh⟩ := readBack_lt hx
  have hdown : 0 < Nat.pow 10 (-scale).toNat := Nat.pow_pos (by decide)
  have hone : 0 < Nat.pow 10 scale.toNat * (4 * unitsPerOne) :=
    Nat.mul_pos (Nat.pow_pos (by decide)) (Nat.mul_pos (by decide) unitsPerOne_pos)
  have hwide : x.readBack.value * Nat.pow 10 (-scale).toNat + Nat.pow 10 scale.toNat * (4 * unitsPerOne) ≤
      x.readBack.high * Nat.pow 10 (-scale).toNat := by
    rw [hhigh, Nat.add_mul]
    exact Nat.add_le_add_left hfine _
  obtain ⟨point, hpoint, hbetween⟩ := exists_between hone (Nat.mul_lt_mul_of_pos_right hlow hdown) hwide
  have hholds := ReadBack.holds_of_lt hbetween.1 hbetween.2
  unfold ReadBack.onGrid?
  simp only
  split
  · rfl
  · rfl
  · rfl
  · rename_i hbelow habove
    rcases hpoint with rfl | rfl
    · exact absurd (hbelow.symm.trans hholds) Bool.false_ne_true
    · exact absurd (habove.symm.trans hholds) Bool.false_ne_true

theorem mem_scales {scale : Int} : scale ∈ scales ↔ -324 ≤ scale ∧ scale ≤ 309 := by
  simp only [scales, List.mem_map, List.mem_range]
  constructor
  · rintro ⟨i, hi, rfl⟩
    omega
  · intro h
    exact ⟨(309 - scale).toNat, by omega, by omega⟩

/-- What the search finds is among the reals that round to the number. -/
theorem shortestDigits_holds {x : Binary64} (hx : x.magnitude ≠ 0) :
    ∃ digits scale, x.shortestDigits = (digits, scale) ∧ scale ∈ scales ∧ x.readBack.holds digits scale = true := by
  have hfinest : (x.readBack.onGrid? (-324)).isSome = true := by
    refine onGrid?_isSome hx ?_
    calc Nat.pow 10 (-324 : Int).toNat * (4 * unitsPerOne) ≤ 2 * 1 * Nat.pow 10 (-(-324 : Int)).toNat := by
          decide +kernel
      _ ≤ 2 * x.spacing * Nat.pow 10 (-(-324 : Int)).toNat :=
        Nat.mul_le_mul_right _ (Nat.mul_le_mul_left _ (Nat.pow_pos (by decide)))
  unfold shortestDigits
  cases hfound : scales.findSome? fun scale => (x.readBack.onGrid? scale).map (·, scale) with
  | none =>
    rw [List.findSome?_eq_none_iff] at hfound
    have := hfound (-324) (mem_scales.2 (by decide))
    rw [Option.map_eq_none_iff] at this
    rw [this] at hfinest
    cases hfinest
  | some found =>
    obtain ⟨scale, hscale, hgrid⟩ := List.exists_of_findSome?_eq_some hfound
    obtain ⟨digits, hdigits, rfl⟩ := Option.map_eq_some_iff.1 hgrid
    exact ⟨digits, scale, rfl, hscale, ReadBack.holds_of_onGrid? hdigits⟩

/-- **The shortest digits of a finite number are rounded to it.** -/
theorem shortestDigits_spec {x : Binary64} (hfinite : x.isFinite = true) (hx : x.magnitude ≠ 0) :
    ∃ digits scale, x.shortestDigits = (digits, scale) ∧ scale ∈ scales ∧ digits ≠ 0 ∧
      roundRatio (digits * Nat.pow 10 scale.toNat) (Nat.pow 10 (-scale).toNat) = x.magnitude := by
  obtain ⟨digits, scale, hfound, hscale, hholds⟩ := shortestDigits_holds hx
  have hwithin := ReadBack.holds_iff.1 hholds
  refine ⟨digits, scale, hfound, hscale, ?_, roundUnits_of_within hfinite (Nat.pow_pos (by decide)) hwithin⟩
  rintro rfl
  have hlow := hwithin.low
  have hpos : 0 < x.readBack.low * Nat.pow 10 (-scale).toNat :=
    Nat.mul_pos (readBack_lt hx).1 (Nat.pow_pos (by decide))
  rw [Nat.zero_mul, Nat.zero_mul] at hlow
  omega

end IndexedStore.Binary64
