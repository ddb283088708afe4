import Pearl.Constant
import Pearl.Diagnostic
import Pearl.Literal
import Pearl.Text.Blank

/-! # The constants that literals denote

A number that cannot be read is out of range; a part of a time that can be read but has no place in
a time is out of bounds.
-/

namespace Pearl

/-- Precisions of numeric literals that state none. -/
structure Precisions where
  fixed : Precision
  float : Precision
deriving DecidableEq, Repr

/-- Where a literal stands, for diagnostics. -/
structure LiteralSite where
  location : Location
  text : String
deriving DecidableEq, Repr

namespace LiteralSite

def outOfRange (site : LiteralSite) : Diagnostic := ⟨.numberOutOfRange, site.location, site.text⟩

def outOfBounds (site : LiteralSite) : Diagnostic := ⟨.valueOutOfBounds, site.location, site.text⟩

end LiteralSite

namespace Literal

variable (site : LiteralSite)

def readFixed (text : String) : Except Diagnostic Int :=
  match Text.word? (Text.trimBlanks text.toList) with
  | some v => .ok v
  | none => .error site.outOfRange

def readFloat (text : String) : Except Diagnostic Binary64 :=
  match Binary64.read? (Text.trimBlanks text.toList) with
  | some x => if x.isFinite then .ok x else .error site.outOfRange
  | none => .error site.outOfRange

/-! ## Bit strings -/

/-- The lowest `width` bits of a number, the most significant first. -/
def bitsOf (width n : Nat) : List Bool :=
  (List.range width).reverse.map n.testBit

/-- The bits of a digit that takes `base` bits. -/
def digitBits? (base : Nat) (c : Char) : Option (List Bool) :=
  match Text.hexValue? c with
  | some v => if v < Nat.pow 2 base then some (bitsOf base v) else none
  | none => none

def pattern? (base : Nat) : List Char → Option (List Bool)
  | [] => some []
  | c :: cs => do
    let first ← digitBits? base c
    let rest ← pattern? base cs
    pure (first ++ rest)

/-- Digits take one to four bits each. -/
def readBits (digits : String) (base : Nat) : Except Diagnostic (List Bool) :=
  if 1 ≤ base ∧ base ≤ 4 then
    match pattern? base digits.toList with
    | some pattern => .ok pattern
    | none => .error site.outOfRange
  else .error site.outOfRange

/-! ## Times -/

def readHours (text : String) : Except Diagnostic Nat := do
  let h ← readFixed site text
  if 0 ≤ h then pure h.toNat else throw site.outOfBounds

def readMinutes (text : String) : Except Diagnostic Nat := do
  let m ← readFixed site text
  if 0 ≤ m ∧ m ≤ 59 then pure m.toNat else throw site.outOfBounds

def readSeconds (text : String) : Except Diagnostic Binary64 := do
  let s ← readFloat site text
  if s.isBelowZero then throw site.outOfBounds else pure s

/-- A part that is not given takes the value `absent`. -/
def readPart {α : Type} (read : String → Except Diagnostic α) (absent : α) :
    Option String → Except Diagnostic α
  | none => .ok absent
  | some text => read text

/-! ## All literals -/

/-- The constant that a literal denotes. Clock hours count modulo a day. -/
def denote (defaults : Precisions) : Literal → Except Diagnostic Constant
  | .fixed text g => do
    let v ← readFixed site text
    pure (.fixed v (g.getD defaults.fixed))
  | .float text g => do
    let v ← readFloat site text
    pure (.float v (g.getD defaults.float))
  | .bits digits base => do
    let pattern ← readBits site digits base
    pure (.bits pattern 0)
  | .string content => .ok (.char content)
  | .duration h m s => do
    let h ← readPart (readHours site) 0 h
    let m ← readPart (readMinutes site) 0 m
    let s ← readPart (readSeconds site) .zero s
    pure (.duration h m s)
  | .clock h m s => do
    let h ← readHours site h
    let m ← readMinutes site m
    let s ← readSeconds site s
    pure (.clock (h % 24) m s)

/-- The constant of a numeric literal after a minus sign; none for a literal that takes no sign. -/
def denoteNegated (defaults : Precisions) (literal : Literal) :
    Except Diagnostic (Option Constant) :=
  if literal.isNumeric then do
    match ← literal.denote site defaults with
    | .fixed v g =>
      if Text.FitsWord (-v) then pure (some (.fixed (-v) g)) else throw site.outOfRange
    | .float v g => pure (some (.float v.neg g))
    | _ => pure none
  else .ok none

end Literal

/-- The binary digits of the magnitude, at least one, and a sign bit for a negative number. -/
def fixedWidth (v : Int) : Precision :=
  let digits := if v = 0 then 1 else v.natAbs.log2 + 1
  if v < 0 then digits + 1 else digits

end Pearl
