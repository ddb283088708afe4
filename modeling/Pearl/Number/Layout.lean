import Pearl.Number.Shortest

/-! # Decimal text of floating-point values -/

namespace Pearl

/-- How the shortest digits are laid out. -/
structure Layout where
  /-- least and greatest magnitude written without an exponent; none where an exponent is never
  used -/
  positional : Option (Int × Int)
  /-- whether a whole number keeps a point and a zero -/
  keepsPoint : Bool
  /-- whether a positive exponent carries a plus sign -/
  signsExponent : Bool
  tie : Tie
deriving Repr

namespace Layout

def isPositional (l : Layout) (magnitude : Int) : Bool :=
  match l.positional with
  | none => true
  | some (least, greatest) => least ≤ magnitude && magnitude ≤ greatest

/-- Digits with the point after the one of exponent zero. -/
def writePositional (l : Layout) (digits : List Char) (magnitude : Int) : List Char :=
  if magnitude < 0 then
    '0' :: '.' :: (List.replicate ((-magnitude).toNat - 1) '0' ++ digits)
  else
    let whole := magnitude.toNat + 1
    if digits.length ≤ whole then
      digits ++ List.replicate (whole - digits.length) '0' ++
        if l.keepsPoint then ['.', '0'] else []
    else
      digits.take whole ++ '.' :: digits.drop whole

/-- One digit before the point, and the magnitude as an exponent. -/
def writeScientific (l : Layout) (digits : List Char) (magnitude : Int) : List Char :=
  let sign := if magnitude < 0 then ['-'] else if l.signsExponent then ['+'] else []
  let places := if digits.length ≤ 1 then [] else '.' :: digits.drop 1
  digits.take 1 ++ places ++ 'e' :: (sign ++ Nat.toDigits 10 magnitude.natAbs)

def writeDecimal (l : Layout) (d : Decimal) : List Char :=
  let digits := Nat.toDigits 10 d.digits
  if l.isPositional d.magnitude then l.writePositional digits d.magnitude
  else l.writeScientific digits d.magnitude

/-- The text of a value. A not-a-number has no sign, zero has one. -/
def write (l : Layout) (x : Binary64) : List Char :=
  if x.isNaN then "NaN".toList else
  let magnitude :=
    if x.isFinite then l.writeDecimal (x.shortest l.tie) else "inf".toList
  if x.isMinus then '-' :: magnitude else magnitude

end Layout

end Pearl
