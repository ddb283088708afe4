import Pearl.Json.Basic

/-! # Diagnostics

The first fault ends the analysis of a unit. A fault that the unit's author can mend is a
diagnostic; an id without a node, or a length past its limit, is a fault of what was handed in.
-/

namespace Pearl

/-- A stretch of source text. -/
structure Location where
  line : Nat
  col : Nat
  endLine : Nat
  endCol : Nat
deriving DecidableEq, Repr

namespace Location

/-- A location that covers a single position. -/
def point (line col : Nat) : Location := ⟨line, col, line, col⟩

/-- Where nothing has been said about the location. -/
def unknown : Location := point 0 0

def text (l : Location) : String := toString l.line ++ ":" ++ toString l.col

def toJson (l : Location) : Json :=
  .object [("line", .nat l.line), ("col", .nat l.col), ("end_line", .nat l.endLine),
    ("end_col", .nat l.endCol)]

end Location

inductive Complaint where
  | numberOutOfRange
  | illegalExpression
  | typeMismatch
  | unknownIdentifier
  | valueOutOfBounds
  | notYetImplemented (feature : String)
  | internalCompilerError
deriving DecidableEq, Repr

def Complaint.text : Complaint → String
  | .numberOutOfRange => "number out of range"
  | .illegalExpression => "illegal expression"
  | .typeMismatch => "type mismatch"
  | .unknownIdentifier => "unknown identifier"
  | .valueOutOfBounds => "value out of bounds"
  | .notYetImplemented feature => "not yet implemented: " ++ feature
  | .internalCompilerError => "internal compiler error"

structure Diagnostic where
  complaint : Complaint
  location : Location
  /-- source text of the offending node -/
  text : String
deriving DecidableEq, Repr

namespace Diagnostic

/-- A missing feature stands in for the source text as well. -/
def notYetImplemented (feature : String) (location : Location) : Diagnostic :=
  ⟨.notYetImplemented feature, location, feature⟩

def internal (location : Location) (text : String) : Diagnostic :=
  ⟨.internalCompilerError, location, text⟩

def message (d : Diagnostic) : String :=
  d.location.text ++ ": " ++ d.complaint.text ++
    if d.text.isEmpty then "" else " (" ++ d.text ++ ")"

end Diagnostic

/-- Why an analysis ended early. -/
inductive Halt where
  | reported (diagnostic : Diagnostic)
  /-- an id was followed that leads to no node -/
  | danglingReference
  /-- the length of a concatenation reached the limit of precisions -/
  | lengthOverflow
deriving DecidableEq, Repr

end Pearl
