/-!
# Binary64 numbers

The numbers of a `Value::Float` and of an `OrderedFloat`. A number is kept as its 64 bits: a sign bit, eleven
exponent bits and fifty-two fraction bits. All arithmetic on it is exact arithmetic on natural numbers. A
finite number is a whole multiple of `2 ^ -1074`, the least positive one, and `units` is that multiple without
its sign, so comparing finite numbers is comparing integers.

Two orders live here. `totalCompare` orders all bit patterns, with `-0` below `0` and the two
kinds of NaN at the two ends; `same` is arithmetic equality, where the zeros agree and a NaN equals
nothing.
-/

namespace IndexedStore

/-- A binary64 number, given by its bits. -/
structure Binary64 where
  bits : UInt64
deriving DecidableEq, Repr, Inhabited

namespace Binary64

/-- The weight of the sign bit. -/
def signWeight : Nat := 0x8000000000000000

/-- The number of fractions, and so the weight of the lowest exponent bit. -/
def binade : Nat := 0x10000000000000

/-- The bits without the sign: an order-preserving code of the magnitude. -/
def magnitude (x : Binary64) : Nat := x.bits.toNat % signWeight

/-- The sign bit. -/
def negative (x : Binary64) : Bool := decide (signWeight ≤ x.bits.toNat)

/-- The magnitude code of infinity; every NaN has a larger one. -/
def infinityCode : Nat := 2047 * binade

/-- The number with a given sign and magnitude code. -/
def ofCode (negative : Bool) (code : Nat) : Binary64 :=
  ⟨UInt64.ofNat (if negative then signWeight + code else code)⟩

def isNaN (x : Binary64) : Bool := decide (infinityCode < x.magnitude)

def isFinite (x : Binary64) : Bool := decide (x.magnitude < infinityCode)

/-- The one NaN that keys are built with, in `Key::float`. -/
def nan : Binary64 := ⟨0x7ff8000000000000⟩

def infinity : Binary64 := ⟨0x7ff0000000000000⟩

def negInfinity : Binary64 := ⟨0xfff0000000000000⟩

/-- The eleven exponent bits. -/
def exponentField (x : Binary64) : Nat := x.magnitude / binade

/-- The fifty-two fraction bits. -/
def fraction (x : Binary64) : Nat := x.magnitude % binade

/-- The distance to the next larger magnitude, in multiples of `2 ^ -1074`. -/
def spacing (x : Binary64) : Nat := Nat.pow 2 (x.exponentField - 1)

/-- The magnitude of a finite number, in multiples of `2 ^ -1074`. -/
def units (x : Binary64) : Nat :=
  if x.exponentField = 0 then x.fraction else (binade + x.fraction) * x.spacing

/-- How many units make one. -/
def unitsPerOne : Nat := Nat.pow 2 1074

/-- The signed multiple of `2 ^ -1074` that a finite number stands for. -/
def signedUnits (x : Binary64) : Int := if x.negative then -(x.units : Int) else x.units

/-- The integer that a finite number stands for, if it stands for one: what `Key::float` asks with
`fract() == 0.0`. -/
def toInt? (x : Binary64) : Option Int :=
  if x.isFinite ∧ x.units % unitsPerOne = 0 then
    let whole : Int := x.units / unitsPerOne
    some (if x.negative then -whole else whole)
  else none

/-- The place of a bit pattern in the total order: negative patterns come first, by falling
magnitude, and `-0` comes just before `0`. -/
def rank (x : Binary64) : Int :=
  if x.negative then -(x.magnitude : Int) - 1 else x.magnitude

/-- The total order on bit patterns, `f64::total_cmp`: the order of `OrderedFloat`. -/
def totalCompare (x y : Binary64) : Ordering := compare x.rank y.rank

/-- Arithmetic equality, which the derived `PartialEq` of `Value` uses: `-0` equals `0`, and a NaN equals
nothing. -/
def same (x y : Binary64) : Bool :=
  !x.isNaN && !y.isNaN && (x.bits == y.bits || (x.magnitude == 0 && y.magnitude == 0))

theorem bits_toNat (x : Binary64) :
    x.bits.toNat = (if x.negative then signWeight else 0) + x.magnitude := by
  have h := x.bits.toNat_lt
  unfold negative magnitude signWeight
  by_cases hs : 0x8000000000000000 ≤ x.bits.toNat
  · rw [decide_eq_true hs, if_pos rfl]
    omega
  · rw [decide_eq_false hs, if_neg Bool.false_ne_true]
    omega

theorem magnitude_lt (x : Binary64) : x.magnitude < signWeight := Nat.mod_lt _ (by decide)

/-- Two numbers with the same place in the total order are the same bits. -/
theorem rank_injective {x y : Binary64} (h : x.rank = y.rank) : x = y := by
  have hx := bits_toNat x
  have hy := bits_toNat y
  have : x.bits.toNat = y.bits.toNat := by
    unfold rank at h
    cases hnx : x.negative <;> cases hny : y.negative <;> simp_all <;> omega
  cases x; cases y
  simp only [mk.injEq]
  exact UInt64.toNat_inj.mp this

theorem totalCompare_eq_iff {x y : Binary64} : x.totalCompare y = .eq ↔ x = y := by
  constructor
  · intro h
    exact rank_injective (Std.LawfulEqOrd.eq_of_compare h)
  · rintro rfl
    exact Std.ReflOrd.compare_self

end Binary64

end IndexedStore
