/-! # Binary floating-point values of 64 bits

A value is kept as its bits, so that two values are equal exactly when they are the same bit for
bit: zero and negative zero differ, and so do two not-a-numbers of different sign. Arithmetic goes
through `Float`.
-/

namespace Pearl

structure Binary64 where
  bits : UInt64
deriving DecidableEq, Repr

namespace Binary64

def ofFloat (x : Float) : Binary64 := ⟨x.toBits⟩

def toFloat (x : Binary64) : Float := Float.ofBits x.bits

def zero : Binary64 := ⟨0⟩

def infinity : Binary64 := ⟨0x7FF0000000000000⟩

def notANumber : Binary64 := ⟨0x7FF8000000000000⟩

/-! ## Fields -/

def isMinus (x : Binary64) : Bool := Nat.pow 2 63 ≤ x.bits.toNat

def exponentField (x : Binary64) : Nat := x.bits.toNat / Nat.pow 2 52 % Nat.pow 2 11

def fraction (x : Binary64) : Nat := x.bits.toNat % Nat.pow 2 52

def isFinite (x : Binary64) : Bool := x.exponentField != 2047

def isNaN (x : Binary64) : Bool := x.exponentField == 2047 && x.fraction != 0

def isZero (x : Binary64) : Bool := x.exponentField == 0 && x.fraction == 0

/-- Whether the value is less than zero. Negative zero is not, and neither is a not-a-number. -/
def isBelowZero (x : Binary64) : Bool := x.isMinus && !x.isNaN && !x.isZero

/-- The same magnitude with the other sign. -/
def neg (x : Binary64) : Binary64 := ⟨x.bits ^^^ 0x8000000000000000⟩

/-! ## A finite magnitude is `mantissa * 2 ^ scale` -/

def mantissa (x : Binary64) : Nat :=
  if x.exponentField = 0 then x.fraction else Nat.pow 2 52 + x.fraction

def scale (x : Binary64) : Int :=
  if x.exponentField = 0 then -1074 else (x.exponentField : Int) - 1075

/-- At a power of two the gap to the value below is half the gap to the value above. -/
def isNarrowBelow (x : Binary64) : Bool := x.fraction == 0 && 1 < x.exponentField

end Binary64

end Pearl
