import Pearl.LanguageDefaults
import Pearl.Logging
import Pearl.Toml.Document
import Pearl.Toml.Quoting

/-! # Settings

Settings are read from a TOML document with a section of language defaults and one for logging. What
is not given keeps its default, and keys that are not known are passed over.
-/

namespace Pearl

structure Settings where
  defaults : LanguageDefaults := {}
  logging : Logging.Section := {}
deriving DecidableEq, Repr

namespace Settings

/-! ## Reading -/

/-- The fields of a section, by name or in order. -/
inductive Fields where
  | named (entries : Toml.Entries)
  | positional (items : List Toml.Value)

/-- A section is a table, or an array of its values in order. A date or time stands for a table
without any field that is known. -/
def Fields.ofValue? : Toml.Value → Option Fields
  | .table _ entries | .inlineTable entries => some (.named entries)
  | .array items => some (.positional items)
  | .tables elements => some (.positional (elements.map (.table .header)))
  | .moment => some (.named [])
  | .string _ | .integer _ | .float _ | .boolean _ => none

def Fields.get? (fields : Fields) (name : String) (index : Nat) : Option Toml.Value :=
  match fields with
  | .named entries => entries.lookup name
  | .positional items => items[index]?

/-- A field that may be left out, but has to be in order where it is given. -/
def Fields.read? {α : Type} (fields : Fields) (name : String) (index : Nat)
    (denote : Toml.Value → Option α) (absent : α) : Option α :=
  match fields.get? name index with
  | none => some absent
  | some v => denote v

def precision? : Toml.Value → Option Precision
  | .integer n => if 0 ≤ n ∧ n < precisionLimit then some n.toNat else none
  | _ => none

def string? : Toml.Value → Option String
  | .string s => some s
  | _ => none

/-- Whether a value is an empty array or table. -/
def isVoid : Toml.Value → Bool
  | .array [] | .inlineTable [] | .table _ [] | .tables [] => true
  | _ => false

/-- A format is named, or is the one key of a table with a void value. -/
def format? : Toml.Value → Option Logging.Format
  | .string s => Logging.Format.ofName? s
  | .inlineTable [(name, v)] | .table _ [(name, v)] =>
    if isVoid v then Logging.Format.ofName? name else none
  | _ => none

def defaults? (v : Toml.Value) : Option LanguageDefaults := do
  let fields ← Fields.ofValue? v
  let absent : LanguageDefaults := {}
  pure
    { fixedPrecision := ← fields.read? "fixed_precision" 0 precision? absent.fixedPrecision
      floatPrecision := ← fields.read? "float_precision" 1 precision? absent.floatPrecision
      fixedLength := ← fields.read? "fixed_length" 2 precision? absent.fixedLength
      durationRatioPrecision :=
        ← fields.read? "duration_ratio_precision" 3 precision? absent.durationRatioPrecision }

def logging? (v : Toml.Value) : Option Logging.Section := do
  let fields ← Fields.ofValue? v
  let absent : Logging.Section := {}
  pure
    { level := ← fields.read? "level" 0 string? absent.level
      format := ← fields.read? "format" 1 format? absent.format
      filter := ← fields.read? "filter" 2 (fun v => (string? v).map some) absent.filter }

/-- The settings of a document. -/
def parse? (document : String) : Option Settings := do
  let fields := Fields.named (← Toml.parse? document)
  pure
    { defaults := ← fields.read? "defaults" 0 defaults? {}
      logging := ← fields.read? "logging" 1 logging? {} }

/-! ## Writing -/

def entry (key value : String) : String := key ++ " = " ++ value ++ "\n"

/-- The document of some settings. A filter is written only where there is one. -/
def text? (s : Settings) : Option String := do
  let level ← Toml.quote? s.logging.level
  let format ← Toml.quote? s.logging.format.name
  let filter ← match s.logging.filter with
    | none => pure ""
    | some filter => (Toml.quote? filter).map (entry "filter")
  pure <|
    "[defaults]\n" ++
      entry "fixed_precision" (toString s.defaults.fixedPrecision) ++
      entry "float_precision" (toString s.defaults.floatPrecision) ++
      entry "fixed_length" (toString s.defaults.fixedLength) ++
      entry "duration_ratio_precision" (toString s.defaults.durationRatioPrecision) ++
    "\n[logging]\n" ++
      entry "level" level ++ entry "format" format ++ filter

end Settings

end Pearl
