/-! # Operators -/

namespace Pearl

/-- Operators with one operand. -/
inductive Monadic where
  | plus | minus | abs | sign | not
  | toFixed | toFloat | toBit | toChar
  | entier | round
  | sqrt | sin | cos | exp | ln | tan | atan | tanh
deriving DecidableEq, Repr

def Monadic.symbol : Monadic → String
  | .plus => "+"
  | .minus => "-"
  | .abs => "ABS"
  | .sign => "SIGN"
  | .not => "NOT"
  | .toFixed => "TOFIXED"
  | .toFloat => "TOFLOAT"
  | .toBit => "TOBIT"
  | .toChar => "TOCHAR"
  | .entier => "ENTIER"
  | .round => "ROUND"
  | .sqrt => "SQRT"
  | .sin => "SIN"
  | .cos => "COS"
  | .exp => "EXP"
  | .ln => "LN"
  | .tan => "TAN"
  | .atan => "ATAN"
  | .tanh => "TANH"

/-- Operators with two operands. -/
inductive Dyadic where
  | add | sub | mul | div | intDiv | rem | pow | fit
  | eq | ne | lt | le | gt | ge
  | and | or | exor
  | cat | shift | cshift
deriving DecidableEq, Repr

def Dyadic.symbol : Dyadic → String
  | .add => "+"
  | .sub => "-"
  | .mul => "*"
  | .div => "/"
  | .intDiv => "//"
  | .rem => "REM"
  | .pow => "**"
  | .fit => "FIT"
  | .eq => "=="
  | .ne => "/="
  | .lt => "<"
  | .le => "<="
  | .gt => ">"
  | .ge => ">="
  | .and => "AND"
  | .or => "OR"
  | .exor => "EXOR"
  | .cat => "CAT"
  | .shift => "SHIFT"
  | .cshift => "CSHIFT"

def Dyadic.isComparison : Dyadic → Bool
  | .eq | .ne | .lt | .le | .gt | .ge => true
  | _ => false

end Pearl
