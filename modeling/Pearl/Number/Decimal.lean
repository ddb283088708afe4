import Pearl.Number.Binary64
import Pearl.Text.Numeral

/-! # Reading decimal numerals as floating-point values -/

namespace Pearl

/-- The number `digits * 10 ^ exponent`. -/
structure Decimal where
  digits : Nat
  exponent : Int
deriving DecidableEq, Repr

namespace Decimal

/-- The exponent of the leading digit: the number is at least `10 ^ magnitude` and less than ten
times that. Zero has magnitude zero. -/
def magnitude (d : Decimal) : Int :=
  if d.digits = 0 then 0 else (Nat.toDigits 10 d.digits).length - 1 + d.exponent

/-- The nearest floating-point value, ties to even. A number of magnitude beyond four hundred is
past every finite value, or below half of the least one. -/
def toBinary64 (d : Decimal) : Binary64 :=
  if d.digits = 0 ∨ d.magnitude < -400 then .zero
  else if 400 < d.magnitude then .infinity
  else .ofFloat (Float.ofScientific d.digits (d.exponent < 0) d.exponent.natAbs)

/-- The part after an exponent mark. -/
def exponent? : List Char → Option Int
  | [] => some 0
  | c :: cs => if c = 'e' ∨ c = 'E' then Text.integer? cs else none

/-- Digits with at most one point and at least one digit, then an optional exponent. -/
def read? (cs : List Char) : Option Decimal := do
  let whole := cs.takeWhile Char.isDigit
  let rest := cs.dropWhile Char.isDigit
  let (places, rest) := match rest with
    | '.' :: rest => (rest.takeWhile Char.isDigit, rest.dropWhile Char.isDigit)
    | rest => ([], rest)
  guard !(whole.isEmpty && places.isEmpty)
  let e ← exponent? rest
  pure ⟨Text.digitsValue (whole ++ places), e - places.length⟩

end Decimal

namespace Binary64

/-- A magnitude: a decimal numeral, or the name of an infinity or a not-a-number in any letter
case. -/
def readMagnitude? (cs : List Char) : Option Binary64 :=
  let name := cs.map Char.toLower
  if name = "inf".toList ∨ name = "infinity".toList then some .infinity
  else if name = "nan".toList then some .notANumber
  else (Decimal.read? cs).map Decimal.toBinary64

/-- A magnitude after an optional sign. -/
def read? : List Char → Option Binary64
  | '+' :: cs => readMagnitude? cs
  | '-' :: cs => (readMagnitude? cs).map neg
  | cs => readMagnitude? cs

end Binary64

end Pearl
