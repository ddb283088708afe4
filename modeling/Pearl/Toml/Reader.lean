import Pearl.Text.Scan
import Pearl.Toml.Token
import Pearl.Toml.Value

/-! # Reading TOML values -/

namespace Pearl.Toml

open Scan

/-! ## White space and comments -/

def isBlank (c : Char) : Bool := c == ' ' || c == '\t'

def blanks : Scan Unit := do
  let _ ← run isBlank

def newline : Scan Unit := mark '\n' <|> word "\r\n"

/-- Characters that may stand in a text as they are: no control characters but the tabulator. -/
def isPlain (c : Char) : Bool := c == '\t' || (' ' ≤ c && c != '\x7f')

def comment : Scan Unit := do
  mark '#'
  let _ ← run isPlain

/-- White space, comments and ends of lines, as between the items of an array. -/
def gap : Scan Unit := do
  let _ ← many ((do let _ ← run1 isBlank) <|> newline <|> comment)

/-! ## Strings -/

/-- The character of `n` hexadecimal digits. -/
def codePoint (n : Nat) : Scan Char := do
  let digits ← (List.replicate n ()).mapM fun _ => next
  let values ← digits.mapM fun c => (Text.hexValue? c : Option Nat)
  let code := values.foldl (fun v d => v * 16 + d) 0
  guard (decide code.isValidChar)
  pure (Char.ofNat code)

/-- The part of an escape after its backslash. -/
def escaped : Scan Char := do
  match ← next with
  | 'b' => pure '\x08'
  | 't' => pure '\t'
  | 'n' => pure '\n'
  | 'f' => pure '\x0c'
  | 'r' => pure '\r'
  | '"' => pure '"'
  | '\\' => pure '\\'
  | 'u' => codePoint 4
  | 'U' => codePoint 8
  | _ => failure

/-- One character of a basic string. -/
def basicChar : Scan (List Char) := do
  let c ← one fun c => isPlain c && c != '"'
  if c = '\\' then return [← escaped] else return [c]

/-- A basic string after its opening quote. -/
def basicString : Scan String := do
  let content ← many basicChar
  mark '"'
  pure (String.ofList content.flatten)

/-- A literal string after its opening quote. -/
def literalString : Scan String := do
  let content ← run fun c => isPlain c && c != '\''
  mark '\''
  pure (String.ofList content)

/-- An end of line reads as a line feed. -/
def lineFeed : Scan (List Char) := do
  newline
  pure ['\n']

/-- A backslash at the end of a line joins it with the next text. -/
def joinedLines : Scan (List Char) := do
  mark '\\'
  blanks
  newline
  let _ ← many ((do let _ ← run1 isBlank) <|> newline)
  pure []

/-- One or two quotes that do not close a string. -/
def innerQuotes (quote : Char) : Scan (List Char) := do
  let quotes ← run (· == quote)
  guard (quotes.length == 1 || quotes.length == 2)
  pure quotes

/-- Three closing quotes, and the one or two before them that belong to the text. -/
def closingQuotes (quote : Char) : Scan (List Char) := do
  let quotes ← run (· == quote)
  guard (3 ≤ quotes.length && quotes.length ≤ 5)
  pure (quotes.drop 3)

/-- A string of several lines after its opening quotes. An end of line directly after them does not
count. -/
def longString (quote : Char) (part : Scan (List Char)) : Scan String := do
  let _ ← optional newline
  let content ← many (part <|> lineFeed <|> innerQuotes quote)
  let last ← closingQuotes quote
  pure (String.ofList (content.flatten ++ last))

def longBasicPart : Scan (List Char) := joinedLines <|> basicChar

def longLiteralPart : Scan (List Char) := run1 fun c => isPlain c && c != '\''

def string : Scan String :=
  (do word "\"\"\""; longString '"' longBasicPart) <|>
  (do word "'''"; longString '\'' longLiteralPart) <|>
  (do mark '"'; basicString) <|>
  (do mark '\''; literalString)

/-! ## Keys -/

/-- Keys and nested values go at most this deep. -/
def nestingLimit : Nat := 79

def isBareKeyChar (c : Char) : Bool := c.isAlphanum || c == '_' || c == '-'

def simpleKey : Scan String :=
  (do mark '"'; basicString) <|>
  (do mark '\''; literalString) <|>
  (do return String.ofList (← run1 isBareKeyChar))

/-- A dotted key, with white space around its parts. -/
def dottedKey : Scan (List String) := do
  let keys ← divided (do
    blanks
    let key ← simpleKey
    blanks
    pure key) (mark '.')
  guard (decide (keys.length ≤ nestingLimit))
  pure keys

/-! ## Values -/

def isTokenChar (c : Char) : Bool :=
  c.isAlphanum || c == '+' || c == '-' || c == '_' || c == '.' || c == ':'

/-- A time after a date and a blank. -/
def laterTime : Scan Unit := do
  mark ' '
  let token ← run1 isTokenChar
  guard (isOffsetTime token)

/-- A value without quotes or brackets. -/
def plainValue : Scan Value := do
  let token ← run1 isTokenChar
  if token = "true".toList then pure (.boolean true)
  else if token = "false".toList then pure (.boolean false)
  else if isDate token then
    let _ ← optional laterTime
    pure .moment
  else if isMoment token then pure .moment
  else match integer? token, float? token with
    | some n, _ => pure (.integer n)
    | none, some x => pure (.float x)
    | none, none => failure

def scalar : Scan Value := (do return .string (← string)) <|> plainValue

/-- The items of an array after its opening bracket. The last one may have a comma too. -/
def array (item : Scan Value) : Scan Value := do
  let spaced : Scan Value := do
    gap
    let v ← item
    gap
    pure v
  let items ← optional (divided spaced (mark ','))
  if items.isSome then
    let _ ← optional (mark ',')
  gap
  mark ']'
  pure (.array (items.getD []))

/-- A key, the sign of equality and a value. -/
def keyValue (value : Scan Value) : Scan (List String × Value) := do
  let keys ← dottedKey
  mark '='
  blanks
  let v ← value
  blanks
  pure (keys, v)

/-- Give a dotted key a value in a table. -/
def assign? (entries : Entries) (keys : List String) (value : Value) : Option Entries :=
  match keys.getLast? with
  | some key => Entries.insertAt? value key keys.dropLast entries
  | none => none

/-- An inline table after its opening brace. -/
def inlineTable (value : Scan Value) : Scan Value := do
  let pairs ← optional (divided (keyValue value) (mark ','))
  blanks
  mark '\x7d'
  let entries ← ((pairs.getD []).foldlM
    (fun es (p : List String × Value) => assign? es p.1 p.2) [] : Option Entries)
  pure (.inlineTable entries)

/-- A value with at most `n` arrays and inline tables inside one another. -/
def value : Nat → Scan Value
  | 0 => scalar
  | n + 1 => do
    match ← peek with
    | some '[' =>
      mark '['
      array (value n)
    | some '\x7b' =>
      mark '\x7b'
      inlineTable (value n)
    | _ => scalar

end Pearl.Toml
