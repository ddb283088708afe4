import Pearl.Diagnostic
import Pearl.Operator
import Pearl.Ty

/-! # Typing rules of the operators

Numeric operators take the larger precision of their operands, except `REM`, `**` and `FIT`, which
take that of the second operand. Every combination that no rule lists is a violation.
-/

namespace Pearl

/-- Why a combination of operand types was refused. -/
inductive Violation where
  | illegalExpression
  | typeMismatch
  | notYetImplemented (feature : String)
  /-- the length of a concatenation reached the limit of precisions -/
  | lengthOverflow
deriving DecidableEq, Repr

/-- The violation as found at an expression. -/
def Violation.halt (v : Violation) (location : Location) (text : String) : Halt :=
  match v with
  | .illegalExpression => .reported ⟨.illegalExpression, location, text⟩
  | .typeMismatch => .reported ⟨.typeMismatch, location, text⟩
  | .notYetImplemented feature => .reported (.notYetImplemented feature location)
  | .lengthOverflow => .lengthOverflow

namespace Monadic

/-- The type of `op x` for an operand of the given type. -/
def result : Monadic → Ty → Except Violation Ty
  | .plus, t | .minus, t | .abs, t => match t with
    | .fixed g => .ok (.fixed g)
    | .float g => .ok (.float g)
    | .duration => .ok .duration
    | _ => .error .illegalExpression
  | .sign, t => match t with
    | .fixed _ | .float _ | .duration => .ok (.fixed 1)
    | _ => .error .illegalExpression
  | .not, t => match t with
    | .bit lg => .ok (.bit lg)
    | _ => .error .illegalExpression
  | .toFixed, t => match t with
    | .bit lg => .ok (.fixed (lg - 1))
    | .char _ => .error (.notYetImplemented "CHARACTER")
    | _ => .error .illegalExpression
  | .toFloat, t => match t with
    | .fixed g => .ok (.float g)
    | _ => .error .illegalExpression
  | .toBit, t => match t with
    | .fixed g => .ok (.bit g)
    | _ => .error .illegalExpression
  | .toChar, _ => .error (.notYetImplemented "TOCHAR")
  | .entier, t | .round, t => match t with
    | .float g => .ok (.fixed g)
    | _ => .error .illegalExpression
  | .sqrt, t | .sin, t | .cos, t | .exp, t | .ln, t | .tan, t | .atan, t | .tanh, t => match t with
    | .float g => .ok (.float g)
    | _ => .error .illegalExpression

end Monadic

namespace Dyadic

/-- Fixed only when both operands are, with the larger precision. -/
def numeric? : Ty → Ty → Option Ty
  | .fixed g, .fixed h => some (.fixed (max g h))
  | .fixed g, .float h | .float g, .fixed h | .float g, .float h => some (.float (max g h))
  | _, _ => none

def sum (s t : Ty) : Except Violation Ty :=
  match numeric? s t with
  | some r => .ok r
  | none => match s, t with
    | .duration, .duration => .ok .duration
    | .duration, .clock | .clock, .duration => .ok .clock
    | _, _ => .error .illegalExpression

def difference (s t : Ty) : Except Violation Ty :=
  match numeric? s t with
  | some r => .ok r
  | none => match s, t with
    | .duration, .duration => .ok .duration
    | .clock, .duration => .ok .clock
    | .clock, .clock => .ok .duration
    | _, _ => .error .illegalExpression

def product (s t : Ty) : Except Violation Ty :=
  match numeric? s t with
  | some r => .ok r
  | none => match s, t with
    | .duration, .fixed _ | .duration, .float _ | .fixed _, .duration | .float _, .duration =>
      .ok .duration
    | _, _ => .error .illegalExpression

/-- The ratio of two durations is a float of precision `ratio`. -/
def quotient (ratio : Precision) : Ty → Ty → Except Violation Ty
  | .fixed g, .fixed h | .fixed g, .float h | .float g, .fixed h | .float g, .float h =>
    .ok (.float (max g h))
  | .duration, .duration => .ok (.float ratio)
  | .duration, .fixed _ | .duration, .float _ => .ok .duration
  | _, _ => .error .illegalExpression

def wholeQuotient : Ty → Ty → Except Violation Ty
  | .fixed g, .fixed h => .ok (.fixed (max g h))
  | .float g, .float h => .ok (.float (max g h))
  | _, _ => .error .illegalExpression

/-- Both operands of one family; the precision is that of the second. -/
def fitted : Ty → Ty → Except Violation Ty
  | .fixed _, .fixed h => .ok (.fixed h)
  | .float _, .float h => .ok (.float h)
  | _, _ => .error .illegalExpression

def power : Ty → Ty → Except Violation Ty
  | .float g, .fixed _ => .ok (.float g)
  | s, t => fitted s t

def ordering : Ty → Ty → Except Violation Ty
  | .fixed _, .fixed _ | .fixed _, .float _ | .float _, .fixed _ | .float _, .float _
  | .clock, .clock | .duration, .duration | .char _, .char _ => .ok (.bit 1)
  | _, _ => .error .illegalExpression

def equality : Ty → Ty → Except Violation Ty
  | .bit _, .bit _ => .ok (.bit 1)
  | s, t => ordering s t

def bitwise : Ty → Ty → Except Violation Ty
  | .bit l, .bit m => .ok (.bit (max l m))
  | _, _ => .error .typeMismatch

/-- A length below the limit of precisions. -/
def length (n : Nat) : Except Violation Precision :=
  if n < precisionLimit then .ok n else .error .lengthOverflow

def concatenation : Ty → Ty → Except Violation Ty
  | .bit l, .bit m => (length (l + m)).map Ty.bit
  | .char l, .char m => (length (l + m)).map Ty.char
  | _, _ => .error .typeMismatch

def shifted : Ty → Ty → Except Violation Ty
  | .bit lg, .fixed _ => .ok (.bit lg)
  | _, _ => .error .typeMismatch

/-- The type of `x op y` for operands of the given types. -/
def result (ratio : Precision) : Dyadic → Ty → Ty → Except Violation Ty
  | .add => sum
  | .sub => difference
  | .mul => product
  | .div => quotient ratio
  | .intDiv => wholeQuotient
  | .rem | .fit => fitted
  | .pow => power
  | .eq | .ne => equality
  | .lt | .le | .gt | .ge => ordering
  | .and | .or | .exor => bitwise
  | .cat => concatenation
  | .shift | .cshift => shifted

end Dyadic

end Pearl
