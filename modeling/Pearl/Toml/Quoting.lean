/-! # Writing TOML strings

A string is written in the first form that shows all of its characters but tabs as they are. Where
there is none, what cannot be shown is escaped.
-/

namespace Pearl.Toml

/-- The forms of a string: between double quotes, with escapes, or between single quotes, without;
on one line between one quote, or over any number of lines between three. -/
inductive Quoting where
  | basic
  | literal
  | longBasic
  | longLiteral
deriving DecidableEq, Repr

/-- The length of the longest run of a character, and of the run at the end. -/
def runs (q : Char) (cs : List Char) : Nat × Nat :=
  cs.foldl (fun (longest, last) c =>
    if c = q then (max longest (last + 1), last + 1) else (longest, 0)) (0, 0)

def longestRun (q : Char) (cs : List Char) : Nat := (runs q cs).1

/-- Control characters other than tabs and ends of lines are never shown. -/
def isHidden (c : Char) : Bool :=
  (c.toNat < 0x20 && c != '\t' && c != '\n') || c == '\x7f'

namespace Quoting

def delimiter : Quoting → List Char
  | .basic => ['"']
  | .literal => ['\'']
  | .longBasic => ['"', '"', '"']
  | .longLiteral => ['\'', '\'', '\'']

def isLong : Quoting → Bool
  | .basic | .literal => false
  | .longBasic | .longLiteral => true

/-- The quotes in a row that are shown. -/
def quotesShown (form : Quoting) : Nat := if form.isLong then 2 else 0

/-- Whether a form shows all characters of a string but tabs as they are. -/
def shows (form : Quoting) (cs : List Char) : Bool :=
  !cs.any isHidden && (form.isLong || !cs.contains '\n') &&
    match form with
    | .basic | .longBasic => !cs.contains '\\' && longestRun '"' cs ≤ form.quotesShown
    | .literal | .longLiteral => longestRun '\'' cs ≤ form.quotesShown

/-- The form that a string is written in. -/
def ofContent (cs : List Char) : Quoting :=
  match [basic, .literal, .longBasic, .longLiteral].find? (·.shows cs) with
  | some form => form
  | none => if cs.contains '\n' then .longBasic else .basic

/-- The text of a character other than a quote. -/
def escape (form : Quoting) (c : Char) : List Char :=
  if c = '\\' then ['\\', '\\']
  else if c = '\x08' then ['\\', 'b']
  else if c = '\t' then ['\\', 't']
  else if c = '\n' then if form.isLong then ['\n'] else ['\\', 'n']
  else if c = '\x0c' then ['\\', 'f']
  else if c = '\r' then ['\\', 'r']
  else if isHidden c then
    '\\' :: 'u' :: '0' :: '0' ::
      [(Nat.digitChar (c.toNat / 16)).toUpper, (Nat.digitChar (c.toNat % 16)).toUpper]
  else [c]

/-- A string with its escapes, after `n` quotes in a row. A quote is escaped where one more would be
too many. -/
def escapeAll (form : Quoting) : Nat → List Char → List Char
  | _, [] => []
  | n, c :: cs =>
    if c = '"' then
      if n < form.quotesShown then c :: form.escapeAll (n + 1) cs
      else '\\' :: '"' :: form.escapeAll 0 cs
    else form.escape c ++ form.escapeAll 0 cs

def content (form : Quoting) (cs : List Char) : List Char :=
  match form with
  | .basic | .longBasic => form.escapeAll 0 cs
  | .literal | .longLiteral => cs

/-- A string in a form. One that has several lines begins on a line of its own. -/
def write (form : Quoting) (cs : List Char) : List Char :=
  let opening := if form.isLong && cs.contains '\n' then ['\n'] else []
  form.delimiter ++ opening ++ form.content cs ++ form.delimiter

end Quoting

/-- The longest run of quotes that a string may have to be written. -/
def runLimit : Nat := 255

/-- The text of a string. One with an overlong run of quotes of either kind has none. -/
def quote? (s : String) : Option String :=
  let cs := s.toList
  if longestRun '"' cs ≤ runLimit ∧ longestRun '\'' cs ≤ runLimit then
    some (String.ofList ((Quoting.ofContent cs).write cs))
  else none

end Pearl.Toml
