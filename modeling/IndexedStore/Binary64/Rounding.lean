import IndexedStore.Binary64.Basic

/-!
# Rounding to binary64

`roundRatio` takes an exact quotient of natural numbers to the magnitude code of the nearest
binary64 number, an exact half going to the even neighbour. Conversions and the arithmetic that
plan costs need are this rounding applied to the exact result.
-/

namespace IndexedStore

namespace Binary64

/-- A quotient rounded to the nearest natural number, a half to the even one. -/
def divNearest (num den : Nat) : Nat :=
  let low := num / den
  let rest := num % den
  if 2 * rest < den then low
  else if 2 * rest = den then (if low % 2 = 0 then low else low + 1)
  else low + 1

/-- The magnitude code nearest to `num / den` units. The quotient is cut to fifty-three bits; the
number of bits cut off is the exponent, and a carry out of the top moves to the next exponent. -/
def roundUnits (num den : Nat) : Nat :=
  let whole := num / den
  let shift := if whole < 2 * binade then 0 else whole.log2 - 52
  min infinityCode (shift * binade + divNearest num (den * Nat.pow 2 shift))

/-- The magnitude code nearest to `num / den`. -/
def roundRatio (num den : Nat) : Nat := roundUnits (num * unitsPerOne) den

/-- The number nearest to `num / den`, with the given sign. -/
def ofRatio (negative : Bool) (num den : Nat) : Binary64 := ofCode negative (roundRatio num den)

/-- The number nearest to an integer: the `as f64` of `cmp_numbers`. -/
def ofInt (i : Int) : Binary64 := ofRatio (decide (i < 0)) i.natAbs 1

/-- The number nearest to a natural number: the `as f64` of `estimate_index_cost`. -/
def ofNat (n : Nat) : Binary64 := ofRatio false n 1

/-- The quotient of two finite numbers that are not negative. -/
def quotient (x y : Binary64) : Binary64 := ofRatio false x.units y.units

/-- The sum of two finite numbers that are not negative. -/
def sum (x y : Binary64) : Binary64 := ofCode false (roundUnits (x.units + y.units) 1)

end Binary64

end IndexedStore
