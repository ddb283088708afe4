import Pearl.Ident
import Pearl.Json.Basic

/-! # Types of values, and what is known of an expression -/

namespace Pearl

/-- Bits of a number, or length of a bit or character string. -/
abbrev Precision := Nat

/-- Precisions and lengths are words of 32 bits. -/
def precisionLimit : Nat := Nat.pow 2 32

inductive Ty where
  | fixed (precision : Precision)
  | float (precision : Precision)
  | bit (length : Precision)
  | char (length : Precision)
  | duration
  | clock
  | array (element : Ty)
  | task
  | reference (target : Ty)
deriving DecidableEq, Repr

namespace Ty

def text : Ty → String
  | .fixed g => "FIXED(" ++ toString g ++ ")"
  | .float g => "FLOAT(" ++ toString g ++ ")"
  | .bit lg => "BIT(" ++ toString lg ++ ")"
  | .char lg => "CHAR(" ++ toString lg ++ ")"
  | .duration => "DURATION"
  | .clock => "CLOCK"
  | .array t => "ARRAY OF " ++ t.text
  | .task => "TASK"
  | .reference t => "REF " ++ t.text

/-- The precision of a numeric type. -/
def precision? : Ty → Option Precision
  | .fixed g | .float g => some g
  | _ => none

def isNumeric (t : Ty) : Bool := t.precision?.isSome

/-- The type of the elements of an array at any depth, else the type itself. -/
def scalar : Ty → Ty
  | .array t => t.scalar
  | t => t

def toJson : Ty → Json
  | .fixed g => .object [("Fixed", .nat g)]
  | .float g => .object [("Float", .nat g)]
  | .bit lg => .object [("Bit", .nat lg)]
  | .char lg => .object [("Char", .nat lg)]
  | .duration => .string "Duration"
  | .clock => .string "Clock"
  | .array t => .object [("Array", t.toJson)]
  | .task => .string "Task"
  | .reference t => .object [("Reference", t.toJson)]

end Ty

/-- The type of an expression, whether its value is constant, and the variable it names. -/
structure Typing where
  ty : Ty
  constant : Bool
  var : Option SymbolId
deriving DecidableEq, Repr

namespace Typing

def ofConstant (ty : Ty) : Typing := ⟨ty, true, none⟩

/-- A value that is known at run time only. -/
def runtime (ty : Ty) : Typing := ⟨ty, false, none⟩

def text (r : Typing) : String :=
  r.ty.text ++ (if r.constant then " const" else "") ++
    match r.var with
    | none => ""
    | some id => " -> " ++ id.text

def toJson (r : Typing) : Json :=
  .object [("ty", r.ty.toJson), ("constant", .bool r.constant),
    ("variable", .ofOption (fun id : SymbolId => .nat id.index) r.var)]

end Typing

end Pearl
