import Pearl.Text.Numeral

/-! # Logging -/

namespace Pearl.Logging

inductive Level where
  | error
  | warn
  | info
  | debug
  | trace
deriving DecidableEq, Repr

namespace Level

def name : Level → String
  | .error => "ERROR"
  | .warn => "WARN"
  | .info => "INFO"
  | .debug => "DEBUG"
  | .trace => "TRACE"

def all : List Level := [.error, .warn, .info, .debug, .trace]

/-- The level of a name in either letter case, or of a number from one, for errors, to five. -/
def read? (text : String) : Option Level :=
  match Text.unsigned? text.toList with
  | some n => if n = 0 then none else all[n - 1]?
  | none =>
    let name := text.toList.map Char.toUpper
    all.find? fun l => l.name.toList == name

end Level

inductive Format where
  | pretty
  | compact
  | json
deriving DecidableEq, Repr

namespace Format

def name : Format → String
  | .pretty => "pretty"
  | .compact => "compact"
  | .json => "json"

def all : List Format := [.pretty, .compact, .json]

def ofName? (name : String) : Option Format := all.find? fun f => f.name == name

end Format

inductive Output where
  | stdout
  | stderr
  /-- files of one day each -/
  | files (directory stem : String)
deriving DecidableEq, Repr

/-- The logging section of the settings. -/
structure Section where
  level : String := "info"
  format : Format := .pretty
  filter : Option String := none
deriving DecidableEq, Repr

/-- How to log. -/
structure Plan where
  level : Level := .info
  format : Format := .pretty
  output : Output := .stderr
  spanEvents : Bool := false
  filter : Option String := none
deriving DecidableEq, Repr

/-- The plan of a section. A level that is not known counts as information. -/
def Plan.ofSection (s : Section) : Plan :=
  { level := (Level.read? s.level).getD .info, format := s.format, filter := s.filter }

end Pearl.Logging
