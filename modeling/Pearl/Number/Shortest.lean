import Pearl.Number.Decimal

/-! # The fewest decimal digits that read back

The numbers that round to a floating-point value form an interval. For one digit, two digits and so
on, the two decimals next to the value on that grid are tried; the first grid with one of them
inside the interval gives the digits.
-/

namespace Pearl

/-- Which of two equally close decimals is taken. -/
inductive Tie where
  | toEven
  | awayFromZero
deriving DecidableEq, Repr

/-- An interval of non-negative numbers around a value, as numerators over one denominator. -/
structure Rounding where
  low : Nat
  value : Nat
  high : Nat
  denominator : Nat
  /-- whether the ends belong to the interval -/
  closed : Bool
deriving Repr

/-- The numbers that round to the magnitude of `x`: half way to each neighbour, ends included
exactly when the mantissa is even. -/
def Binary64.rounding (x : Binary64) : Rounding :=
  let unit := Nat.pow 2 x.scale.toNat
  { low := (4 * x.mantissa - if x.isNarrowBelow then 1 else 2) * unit
    value := 4 * x.mantissa * unit
    high := (4 * x.mantissa + 2) * unit
    denominator := 4 * Nat.pow 2 (-x.scale).toNat
    closed := x.mantissa % 2 == 0 }

namespace Rounding

def contains (r : Rounding) (d : Decimal) : Bool :=
  let number := d.digits * Nat.pow 10 d.exponent.toNat * r.denominator
  let unit := Nat.pow 10 (-d.exponent).toNat
  if r.closed then r.low * unit ≤ number && number ≤ r.high * unit
  else r.low * unit < number && number < r.high * unit

/-- How many steps of `10 ^ k` the value takes, rounded down. -/
def floorOn (r : Rounding) (k : Int) : Nat :=
  r.value * Nat.pow 10 (-k).toNat / (r.denominator * Nat.pow 10 k.toNat)

/-- Compare the value with the number half way between `n` and `n + 1` steps of `10 ^ k`. -/
def compareHalfway (r : Rounding) (n : Nat) (k : Int) : Ordering :=
  compare (2 * r.value * Nat.pow 10 (-k).toNat) ((2 * n + 1) * Nat.pow 10 k.toNat * r.denominator)

/-- The decimal on the grid `10 ^ k` that is closest to the value, if it lies in the interval. -/
def onGrid? (r : Rounding) (tie : Tie) (k : Int) : Option Decimal :=
  let n := r.floorOn k
  let below : Decimal := ⟨n, k⟩
  let above : Decimal := ⟨n + 1, k⟩
  match r.contains below, r.contains above with
  | true, false => some below
  | false, true => some above
  | false, false => none
  | true, true => some <| match r.compareHalfway n k, tie with
    | .lt, _ => below
    | .gt, _ => above
    | .eq, .awayFromZero => above
    | .eq, .toEven => if n % 2 = 0 then below else above

/-- The least `k` with the value below `10 ^ k`. -/
def ceiling (r : Rounding) : Int :=
  if r.denominator ≤ r.value then (Nat.toDigits 10 (r.value / r.denominator)).length
  else 1 - (Nat.toDigits 10 (r.denominator / r.value)).length

end Rounding

/-- Move trailing zeros of the digits into the exponent. -/
def Decimal.strip (d : Decimal) : Decimal :=
  if h : d.digits ≠ 0 ∧ d.digits % 10 = 0 then
    strip ⟨d.digits / 10, d.exponent + 1⟩
  else d
termination_by d.digits
decreasing_by omega

/-- The fewest digits that read back to the magnitude of `x`, and among those the closest decimal.
The exact value stands in should seventeen digits not suffice. -/
def Binary64.shortest (tie : Tie) (x : Binary64) : Decimal :=
  if x.mantissa = 0 then ⟨0, 0⟩ else
  let r := x.rounding
  let found := (List.range 17).findSome? fun n => r.onGrid? tie (r.ceiling - (n + 1 : Nat))
  (found.getD ⟨r.value * Nat.pow 5 (2 - x.scale).toNat, -(2 - x.scale).toNat⟩).strip

end Pearl
