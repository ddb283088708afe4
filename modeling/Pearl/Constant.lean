import Pearl.Ty

/-! # Compile-time constants

Two constants are the same to the pool when they denote the same value, which is not equality of
their parts: the precision of a float and the ordinal of a bit string do not count, and times are
compared by their seconds.
-/

namespace Pearl

inductive Constant where
  | fixed (value : Int) (precision : Precision)
  | float (value : Binary64) (precision : Precision)
  /-- the pattern with its most significant bit first, and the ordinal that a pool gave it; zero
  before that -/
  | bits (pattern : List Bool) (ordinal : Nat)
  | char (value : String)
  | duration (hours minutes : Nat) (seconds : Binary64)
  | clock (hours minutes : Nat) (seconds : Binary64)
deriving DecidableEq, Repr

namespace Constant

def kindName : Constant → String
  | .fixed .. => "fixed"
  | .float .. => "float"
  | .bits .. => "bit"
  | .char .. => "char"
  | .duration .. => "duration"
  | .clock .. => "clock"

def sameKind : Constant → Constant → Bool
  | .fixed .., .fixed .. | .float .., .float .. | .bits .., .bits .. | .char .., .char ..
  | .duration .., .duration .. | .clock .., .clock .. => true
  | _, _ => false

def isBits : Constant → Bool
  | .bits .. => true
  | _ => false

/-- The ordinal that a pool gave to a bit string. -/
def ordinal? : Constant → Option Nat
  | .bits _ n => if 0 < n then some n else none
  | _ => none

/-- The same constant as the `n`-th bit string of a pool. -/
def numbered (n : Nat) : Constant → Constant
  | .bits pattern _ => .bits pattern n
  | c => c

def seconds (hours minutes : Nat) (seconds : Binary64) : Float :=
  hours.toUInt64.toFloat * 3600.0 + minutes.toUInt64.toFloat * 60.0 + seconds.toFloat

/-- The seconds that a duration or a clock time denotes. -/
def inSeconds? : Constant → Option Float
  | .duration h m s | .clock h m s => some (seconds h m s)
  | _ => none

/-- Whether two constants denote the same value. -/
def same : Constant → Constant → Bool
  | .fixed v g, .fixed w h => v == w && g == h
  | .float v _, .float w _ => v == w
  | .bits p _, .bits q _ => p == q
  | .char s, .char t => s == t
  | .duration h m s, .duration h' m' s' => seconds h m s == seconds h' m' s'
  | .clock h m s, .clock h' m' s' => seconds h m s == seconds h' m' s'
  | _, _ => false

/-- The type of a constant. -/
def ty : Constant → Ty
  | .fixed _ g => .fixed g
  | .float _ g => .float g
  | .bits pattern _ => .bit (pattern.length % precisionLimit)
  | .char s => .char (s.length % precisionLimit)
  | .duration .. => .duration
  | .clock .. => .clock

/-! ## Text -/

/-- Numbers of magnitude -4 to 15 are written without an exponent, whole ones with a zero after the
point; a tie goes away from zero. -/
def valueLayout : Layout :=
  { positional := some (-4, 15), keepsPoint := true, signsExponent := false, tie := .awayFromZero }

/-- Seconds are written without an exponent and without an idle point. -/
def secondsLayout : Layout :=
  { positional := none, keepsPoint := false, signsExponent := false, tie := .awayFromZero }

def inSecondsText? (c : Constant) : Option String :=
  c.inSeconds?.map fun x => String.ofList (valueLayout.write (.ofFloat x))

def secondsText (s : Binary64) : String := String.ofList (secondsLayout.write s)

def bitsText (pattern : List Bool) : String :=
  String.ofList (pattern.map fun b => if b then '1' else '0')

/-- At least two digits. -/
def twoDigits (n : Nat) : String := if n < 10 then "0" ++ toString n else toString n

def text : Constant → String
  | .fixed v g => toString v ++ "(" ++ toString g ++ ")"
  | .float v g => String.ofList (valueLayout.write v) ++ "(" ++ toString g ++ ")"
  | .bits pattern n =>
    "'" ++ bitsText pattern ++ "'B" ++ if 0 < n then " #" ++ toString n else ""
  | .char s => "'" ++ s ++ "'"
  | .duration h m s => toString h ++ " HRS " ++ toString m ++ " MIN " ++ secondsText s ++ " SEC"
  | .clock h m s => twoDigits h ++ ":" ++ twoDigits m ++ ":" ++ secondsText s

def toJson (c : Constant) : Json :=
  .object <| ("kind", .string c.kindName) :: match c with
    | .fixed v g => [("value", .int v), ("precision", .nat g)]
    | .float v g => [("value", .float v), ("precision", .nat g)]
    | .bits pattern n => [("bits", .string (bitsText pattern)), ("ordinal", .nat n)]
    | .char s => [("value", .string s)]
    | .duration h m s | .clock h m s =>
      [("hours", .nat h), ("minutes", .nat m), ("seconds", .float s)]

end Constant

end Pearl
