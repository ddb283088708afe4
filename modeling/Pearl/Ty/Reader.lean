import Pearl.Json.Scan
import Pearl.Ty

/-! # Reading types from JSON text

A type is a name, or an object with one field that the name of the type is the key of. What is known
of an expression is an object of three fields, or an array of their values.
-/

namespace Pearl

namespace Ty

/-- Types that a name alone denotes. -/
def plain : List (String × Ty) := [("Duration", .duration), ("Clock", .clock), ("Task", .task)]

/-- Types with a precision or length. -/
def sized : List (String × (Precision → Ty)) :=
  [("Fixed", .fixed), ("Float", .float), ("Bit", .bit), ("Char", .char)]

/-- Types made from another one. -/
def wrapped : List (String × (Ty → Ty)) := [("Array", .array), ("Reference", .reference)]

/-- The name of a type that takes nothing. -/
def readPlain (cs : List Char) : Option (Ty × List Char) := do
  let (name, rest) ← Json.readString cs
  let t ← plain.lookup name
  pure (t, rest)

/-- The part of a type's object after its key, where `inner` reads a type. -/
def readArgument (inner : List Char → Option (Ty × List Char)) (key : String) (cs : List Char) :
    Option (Ty × List Char) :=
  match sized.lookup key, wrapped.lookup key, plain.lookup key with
  | some make, _, _ => do
    let (n, rest) ← Json.readNatBelow precisionLimit cs
    pure (make n, rest)
  | none, some make, _ => do
    let (t, rest) ← inner cs
    pure (make t, rest)
  | none, none, some t => do
    let rest ← Json.word? "null" cs
    pure (t, rest)
  | none, none, none => none

/-- The object of a type after its opening brace. -/
def readObject (inner : List Char → Option (Ty × List Char)) (cs : List Char) :
    Option (Ty × List Char) := do
  let (key, cs) ← Json.readString cs
  let cs ← Json.mark? ':' cs
  let (t, cs) ← readArgument inner key cs
  let cs ← Json.mark? '\x7d' cs
  pure (t, cs)

/-- A type that takes at most `n` objects inside one another. -/
def read : Nat → List Char → Option (Ty × List Char)
  | 0, cs => readPlain cs
  | n + 1, cs => match Json.mark? '\x7b' cs with
    | some rest => readObject (read n) rest
    | none => readPlain cs

/-- Objects and arrays nest at most this deep in a text. -/
def nestingLimit : Nat := 127

def ofJsonText? (text : String) : Option Ty := Json.whole (read nestingLimit) text

end Ty

namespace Typing

/-- The type inside an object or array. -/
def readTy : List Char → Option (Ty × List Char) := Ty.read (Ty.nestingLimit - 1)

def readBool (cs : List Char) : Option (Bool × List Char) :=
  match Json.word? "true" cs with
  | some rest => some (true, rest)
  | none => (Json.word? "false" cs).map (false, ·)

def readVar (cs : List Char) : Option (Option SymbolId × List Char) :=
  match Json.word? "null" cs with
  | some rest => some (none, rest)
  | none => (Json.readNatBelow precisionLimit cs).map fun (n, rest) => (some ⟨n⟩, rest)

/-- The fields that have been read. -/
structure Fields where
  ty : Option Ty := none
  constant : Option Bool := none
  var : Option (Option SymbolId) := none

/-- Read the value of a field. A known field may be given once, others are skipped. -/
def readField (fields : Fields) (key : String) (cs : List Char) : Option (Fields × List Char) :=
  match key with
  | "ty" => do
    guard fields.ty.isNone
    let (t, rest) ← readTy cs
    pure ({ fields with ty := some t }, rest)
  | "constant" => do
    guard fields.constant.isNone
    let (b, rest) ← readBool cs
    pure ({ fields with constant := some b }, rest)
  | "variable" => do
    guard fields.var.isNone
    let (v, rest) ← readVar cs
    pure ({ fields with var := some v }, rest)
  | _ => (Json.skip cs).map (fields, ·)

/-- One to `n` fields and the closing brace. -/
def readFields : Nat → Fields → List Char → Option (Fields × List Char)
  | 0, _, _ => none
  | n + 1, fields, cs => do
    let (key, cs) ← Json.readString cs
    let cs ← Json.mark? ':' cs
    let (fields, cs) ← readField fields key cs
    match Json.mark? ',' cs with
    | some cs => readFields n fields cs
    | none => (Json.mark? '\x7d' cs).map (fields, ·)

/-- The variable may be left out. -/
def Fields.typing? (fields : Fields) : Option Typing := do
  pure ⟨← fields.ty, ← fields.constant, fields.var.getD none⟩

/-- The object form after its opening brace. An object without fields lacks those that are
needed. -/
def readObject (cs : List Char) : Option (Typing × List Char) := do
  let (fields, rest) ← readFields cs.length {} cs
  let r ← fields.typing?
  pure (r, rest)

/-- The array form after its opening bracket. -/
def readArray (cs : List Char) : Option (Typing × List Char) := do
  let (t, cs) ← readTy cs
  let (b, cs) ← readBool (← Json.mark? ',' cs)
  let (v, cs) ← readVar (← Json.mark? ',' cs)
  let cs ← Json.mark? ']' cs
  pure (⟨t, b, v⟩, cs)

def read (cs : List Char) : Option (Typing × List Char) :=
  match Json.mark? '\x7b' cs with
  | some rest => readObject rest
  | none => match Json.mark? '[' cs with
    | some rest => readArray rest
    | none => none

def ofJsonText? (text : String) : Option Typing := Json.whole read text

end Typing

end Pearl
