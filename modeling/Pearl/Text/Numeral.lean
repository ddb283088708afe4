/-! # Decimal numerals of integers -/

namespace Pearl.Text

/-- The number that a run of decimal digits denotes. -/
def digitsValue (cs : List Char) : Nat :=
  cs.foldl (fun n c => 10 * n + (c.toNat - '0'.toNat)) 0

/-- The value of a hexadecimal digit in either letter case. -/
def hexValue? (c : Char) : Option Nat :=
  if '0' ≤ c ∧ c ≤ '9' then some (c.toNat - '0'.toNat)
  else if 'a' ≤ c ∧ c ≤ 'f' then some (c.toNat - 'a'.toNat + 10)
  else if 'A' ≤ c ∧ c ≤ 'F' then some (c.toNat - 'A'.toNat + 10)
  else none

/-- One or more ASCII digits. -/
def natural? (cs : List Char) : Option Nat :=
  if cs.isEmpty || !cs.all Char.isDigit then none else some (digitsValue cs)

/-- Digits after an optional sign. -/
def integer? : List Char → Option Int
  | '+' :: cs => (natural? cs).map Int.ofNat
  | '-' :: cs => (natural? cs).map fun n => -Int.ofNat n
  | cs => (natural? cs).map Int.ofNat

/-- Digits after an optional plus sign. -/
def unsigned? : List Char → Option Nat
  | '+' :: cs => natural? cs
  | cs => natural? cs

/-- Whether a number fits a signed word of 64 bits. -/
def FitsWord (v : Int) : Prop := -Nat.pow 2 63 ≤ v ∧ v < Nat.pow 2 63

instance (v : Int) : Decidable (FitsWord v) :=
  inferInstanceAs (Decidable (_ ∧ _))

/-- A numeral whose value fits a signed word of 64 bits. -/
def word? (cs : List Char) : Option Int :=
  (integer? cs).filter fun v => decide (FitsWord v)

end Pearl.Text
