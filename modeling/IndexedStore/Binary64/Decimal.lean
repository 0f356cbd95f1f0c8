import IndexedStore.Binary64.Rounding

/-!
# Decimal texts of binary64 numbers

`shortest` writes the fewest digits that read back as the same number, positionally and never with
an exponent. It looks for the coarsest grid of powers of ten that has a point among the reals which
round to the number, and takes the nearest such point, a tie going up. `withOnePlace` rounds to one
digit after the point, a half going to the even neighbour. `ofLiteral?` reads a decimal literal. A
`Value::Float` is displayed by the first, the cost of an `ExecutionPlan` by the second, and `parse_literal`
reads by the third.
-/

namespace IndexedStore

namespace Binary64

/-- The decimal digits of a natural number. -/
def digitChars (n : Nat) : List Char := Nat.toDigits 10 n

/-- A decimal `digits * 10 ^ scale` written positionally. -/
def positional (digits : Nat) (scale : Int) : List Char :=
  let ds := digitChars digits
  if 0 ≤ scale then ds ++ List.replicate scale.toNat '0'
  else
    let places := (-scale).toNat
    if places < ds.length then
      ds.take (ds.length - places) ++ '.' :: ds.drop (ds.length - places)
    else '0' :: '.' :: (List.replicate (places - ds.length) '0' ++ ds)

/-- The reals that round to a positive finite number, as bounds in quarter units. Below a power of
two the spacing halves, so the lower bound is nearer there. The bounds themselves round to the number
exactly when its code is even. -/
structure ReadBack where
  low : Nat
  value : Nat
  high : Nat
  closed : Bool
deriving Repr, DecidableEq

def readBack (x : Binary64) : ReadBack where
  low := 4 * x.units - (if x.fraction = 0 ∧ 1 < x.exponentField then x.spacing else 2 * x.spacing)
  value := 4 * x.units
  high := 4 * x.units + 2 * x.spacing
  closed := x.magnitude % 2 == 0

/-- Whether the decimal `digits * 10 ^ scale` is among the reals of `r`. -/
def ReadBack.holds (r : ReadBack) (digits : Nat) (scale : Int) : Bool :=
  let point := digits * Nat.pow 10 scale.toNat * (4 * unitsPerOne)
  let down := Nat.pow 10 (-scale).toNat
  if r.closed then decide (r.low * down ≤ point ∧ point ≤ r.high * down)
  else decide (r.low * down < point ∧ point < r.high * down)

/-- The point of the grid `10 ^ scale` that lies among the reals of `r`, the nearer one if the
value's two neighbours on the grid both do. -/
def ReadBack.onGrid? (r : ReadBack) (scale : Int) : Option Nat :=
  let one := Nat.pow 10 scale.toNat * (4 * unitsPerOne)
  let value := r.value * Nat.pow 10 (-scale).toNat
  let below := value / one
  match r.holds below scale, r.holds (below + 1) scale with
  | true, true => some (if 2 * (value % one) < one then below else below + 1)
  | true, false => some below
  | false, true => some (below + 1)
  | false, false => none

/-- The powers of ten a finite number can need, from the coarsest down. -/
def scales : List Int := (List.range 634).map fun i : Nat => 309 - (i : Int)

/-- The fewest digits that read back as a positive finite number, with their power of ten. -/
def shortestDigits (x : Binary64) : Nat × Int :=
  (scales.findSome? fun scale => ((x.readBack).onGrid? scale).map (·, scale)).getD (0, 0)

/-- The text of a number: `NaN`, `inf`, `-inf`, or the shortest digits that read back. -/
def shortest (x : Binary64) : String :=
  if x.isNaN then "NaN"
  else
    let sign := if x.negative then ['-'] else []
    let body :=
      if x.magnitude = infinityCode then ['i', 'n', 'f']
      else if x.magnitude = 0 then ['0']
      else positional x.shortestDigits.1 x.shortestDigits.2
    String.ofList (sign ++ body)

/-- A finite number that is not negative, rounded to one place after the point. -/
def withOnePlace (x : Binary64) : String :=
  let tenths := divNearest (x.units * 10) unitsPerOne
  String.ofList (digitChars (tenths / 10) ++ '.' :: digitChars (tenths % 10))

/-- The value of a run of digits. -/
def digitsValue (ds : List Char) : Nat := ds.foldl (fun n c => 10 * n + (c.toNat - 48)) 0

/-- The number nearest to `digits * 10 ^ scale`. Scales far outside the range of binary64 are decided
without computing the power: `digits` has `count` digits. -/
def ofDecimal (negative : Bool) (digits count : Nat) (scale : Int) : Binary64 :=
  if digits = 0 then ofCode negative 0
  else if 400 < scale then ofCode negative infinityCode
  else if scale + count < -400 then ofCode negative 0
  else ofRatio negative (digits * Nat.pow 10 scale.toNat) (Nat.pow 10 (-scale).toNat)

/-- An exponent part: `e` or `E`, a sign if any, and at least one digit; nothing is exponent zero. -/
def exponentPart? : List Char → Option Int
  | [] => some 0
  | e :: rest =>
    if e = 'e' ∨ e = 'E' then
      let (negative, ds) := match rest with
        | '-' :: ds => (true, ds)
        | '+' :: ds => (false, ds)
        | ds => (false, ds)
      if ds.isEmpty ∨ !ds.all Char.isDigit then none
      else some (if negative then -(digitsValue ds : Int) else digitsValue ds)
    else none

/-- A decimal literal without its sign: digits with at most one point, at least one digit in all, and
an exponent part. -/
def unsignedDecimal? (negative : Bool) (text : List Char) : Option Binary64 :=
  let whole := text.takeWhile Char.isDigit
  let afterWhole := text.dropWhile Char.isDigit
  let (places, rest) := match afterWhole with
    | '.' :: more => (more.takeWhile Char.isDigit, more.dropWhile Char.isDigit)
    | other => ([], other)
  if whole.isEmpty ∧ places.isEmpty then none
  else (exponentPart? rest).map fun exponent =>
    ofDecimal negative (digitsValue (whole ++ places)) (whole ++ places).length
      (exponent - places.length)

/-- A number literal: an optional sign, then a decimal, or `inf`, `infinity` or `nan` in any case. -/
def ofLiteral? (text : List Char) : Option Binary64 :=
  let (negative, body) := match text with
    | '-' :: rest => (true, rest)
    | '+' :: rest => (false, rest)
    | rest => (false, rest)
  let name := String.ofList (body.map Char.toLower)
  match unsignedDecimal? negative body with
  | some x => some x
  | none =>
    if name = "inf" ∨ name = "infinity" then some (ofCode negative infinityCode)
    else if name = "nan" then some (ofCode negative nan.magnitude)
    else none

end Binary64

end IndexedStore
