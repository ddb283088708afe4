import Pearl.Ty

/-! # Literals as they are written -/

namespace Pearl

inductive Literal where
  | fixed (text : String) (precision : Option Precision)
  | float (text : String) (precision : Option Precision)
  /-- digits of `base` bits each -/
  | bits (digits : String) (base : Nat)
  | string (content : String)
  | duration (hours minutes seconds : Option String)
  | clock (hours minutes seconds : String)
deriving DecidableEq, Repr

namespace Literal

def isNumeric : Literal → Bool
  | .fixed .. | .float .. => true
  | _ => false

/-- A number with its precision in parentheses, if it has one. -/
def numberText (text : String) : Option Precision → String
  | none => text
  | some g => text ++ "(" ++ toString g ++ ")"

/-- The spelling of a literal. -/
def text : Literal → String
  | .fixed t g | .float t g => numberText t g
  | .bits digits base => "'" ++ digits ++ "'B" ++ toString base
  | .string content => "'" ++ content ++ "'"
  | .duration h m s =>
    " ".intercalate ((h.map (· ++ " HRS")).toList ++ (m.map (· ++ " MIN")).toList ++
      (s.map (· ++ " SEC")).toList)
  | .clock h m s => h ++ ":" ++ m ++ ":" ++ s

end Literal

end Pearl
