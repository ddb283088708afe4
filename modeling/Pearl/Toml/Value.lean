import Pearl.Number.Binary64

/-! # TOML values and tables

A table is made by its own header, by a header or dotted key that leads through it, or inline. What
may still be added to it depends on which.
-/

namespace Pearl.Toml

/-- What made a table. -/
inductive Origin where
  /-- a header of its own -/
  | header
  /-- a header of a table inside it -/
  | implied
  /-- a dotted key that leads through it -/
  | dotted
deriving DecidableEq, Repr

inductive Value where
  | string (s : String)
  | integer (n : Int)
  | float (x : Binary64)
  | boolean (b : Bool)
  /-- a date, a time or both; no setting is one, so nothing more is kept -/
  | moment
  | array (items : List Value)
  | inlineTable (entries : List (String × Value))
  | table (origin : Origin) (entries : List (String × Value))
  /-- the tables of the headers in double brackets -/
  | tables (elements : List (List (String × Value)))
deriving Repr

abbrev Entries := List (String × Value)

namespace Entries

/-- Put a value in the place of the one that a key has. -/
def replace (entries : Entries) (key : String) (value : Value) : Entries :=
  entries.map fun e => if e.1 == key then (key, value) else e

/-- Give a new key a value. -/
def insert? (entries : Entries) (key : String) (value : Value) : Option Entries :=
  if (entries.lookup key).isSome then none else some (entries ++ [(key, value)])

/-- Change the last element of a list of tables. -/
def changeLast? (change : Entries → Option Entries) (elements : List Entries) :
    Option (List Entries) :=
  match elements.getLast? with
  | some last => (change last).map fun last => elements.dropLast ++ [last]
  | none => none

/-- Give a dotted key a value. The tables on its way are new, or were made by keys and headers that
led through them; the one that takes the value was made by dotted keys alone. -/
def insertAt? (value : Value) (key : String) : List String → Entries → Option Entries
  | [], entries => entries.insert? key value
  | k :: path, entries => match entries.lookup k with
    | none => (insertAt? value key path []).map fun sub => entries ++ [(k, .table .dotted sub)]
    | some (.table origin sub) =>
      if origin = .header ∨ (origin = .implied ∧ path = []) then none
      else (insertAt? value key path sub).map fun sub => entries.replace k (.table origin sub)
    | some (.tables elements) =>
      if path = [] then none
      else (changeLast? (insertAt? value key path) elements).map fun elements =>
        entries.replace k (.tables elements)
    | some _ => none

/-- Change the table that a header leads to. Tables on the way that do not exist are implied; a list
of tables is entered at its last one. -/
def changeAt? (change : Entries → Option Entries) : List String → Entries → Option Entries
  | [], entries => change entries
  | k :: path, entries => match entries.lookup k with
    | none => (changeAt? change path []).map fun sub => entries ++ [(k, .table .implied sub)]
    | some (.table origin sub) =>
      (changeAt? change path sub).map fun sub => entries.replace k (.table origin sub)
    | some (.tables elements) =>
      (changeLast? (changeAt? change path) elements).map fun elements =>
        entries.replace k (.tables elements)
    | some _ => none

/-- Open a table by its own header, which may not have been given before. -/
def openTable? (key : String) (entries : Entries) : Option Entries :=
  match entries.lookup key with
  | none => some (entries ++ [(key, .table .header [])])
  | some (.table .implied sub) => some (entries.replace key (.table .header sub))
  | some _ => none

/-- Open one more table of a list of tables. -/
def openElement? (key : String) (entries : Entries) : Option Entries :=
  match entries.lookup key with
  | none => some (entries ++ [(key, .tables [[]])])
  | some (.tables elements) => some (entries.replace key (.tables (elements ++ [[]])))
  | some _ => none

end Entries

end Pearl.Toml
