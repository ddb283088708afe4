import Pearl.Number.Layout

/-! # JSON values and their text

Numbers are kept as their text, so that a value is written exactly as it was chosen or read. Fields
of an object keep their order.
-/

namespace Pearl

inductive Json where
  | null
  | bool (b : Bool)
  | number (text : List Char)
  | string (s : String)
  | array (items : List Json)
  | object (fields : List (String × Json))
deriving Repr

namespace Json

def nat (n : Nat) : Json := .number (Nat.toDigits 10 n)

def int (n : Int) : Json :=
  .number (if n < 0 then '-' :: Nat.toDigits 10 n.natAbs else Nat.toDigits 10 n.natAbs)

def ofOption {α : Type} (f : α → Json) : Option α → Json
  | none => .null
  | some a => f a

/-- Numbers of magnitude -5 to 15 are written without an exponent, whole ones with a zero after the
point; exponents are signed, and a tie goes to the even digit. -/
def layout : Layout :=
  { positional := some (-5, 15), keepsPoint := true, signsExponent := true, tie := .toEven }

/-- There is no number for an infinity or a not-a-number. -/
def float (x : Binary64) : Json :=
  if x.isFinite then .number (layout.write x) else .null

/-! ## Strings -/

def hexDigit (n : Nat) : Char := (Nat.digitChar n)

/-- Quotes, backslashes and the control characters below the blank are escaped, all else is not. -/
def escape (c : Char) : List Char :=
  if c = '"' then ['\\', '"']
  else if c = '\\' then ['\\', '\\']
  else if c = '\x08' then ['\\', 'b']
  else if c = '\t' then ['\\', 't']
  else if c = '\n' then ['\\', 'n']
  else if c = '\x0c' then ['\\', 'f']
  else if c = '\r' then ['\\', 'r']
  else if c.toNat < 0x20 then
    ['\\', 'u', '0', '0', hexDigit (c.toNat / 16), hexDigit (c.toNat % 16)]
  else [c]

def quote (s : String) : List Char :=
  '"' :: (s.toList.flatMap escape ++ ['"'])

/-! ## Without white space -/

mutual

def compact : Json → List Char
  | .null => "null".toList
  | .bool true => "true".toList
  | .bool false => "false".toList
  | .number text => text
  | .string s => quote s
  | .array [] => ['[', ']']
  | .array (item :: items) => '[' :: (compact item ++ compactItems items)
  | .object [] => ['\x7b', '\x7d']
  | .object ((key, value) :: fields) =>
    '\x7b' :: (quote key ++ ':' :: (compact value ++ compactFields fields))

/-- The items after the first, and the closing bracket. -/
def compactItems : List Json → List Char
  | [] => [']']
  | item :: items => ',' :: (compact item ++ compactItems items)

/-- The fields after the first, and the closing brace. -/
def compactFields : List (String × Json) → List Char
  | [] => ['\x7d']
  | (key, value) :: fields => ',' :: (quote key ++ ':' :: (compact value ++ compactFields fields))

end

/-! ## One item to a line, indented by two blanks -/

/-- A new line at depth `n`. -/
def newline (n : Nat) : List Char := '\n' :: List.replicate (2 * n) ' '

mutual

def pretty (n : Nat) : Json → List Char
  | .null => "null".toList
  | .bool true => "true".toList
  | .bool false => "false".toList
  | .number text => text
  | .string s => quote s
  | .array [] => ['[', ']']
  | .array (item :: items) => '[' :: (newline (n + 1) ++ pretty (n + 1) item ++ prettyItems n items)
  | .object [] => ['\x7b', '\x7d']
  | .object ((key, value) :: fields) =>
    '\x7b' :: (newline (n + 1) ++ quote key ++ ':' :: ' ' :: (pretty (n + 1) value ++
      prettyFields n fields))

def prettyItems (n : Nat) : List Json → List Char
  | [] => newline n ++ [']']
  | item :: items => ',' :: (newline (n + 1) ++ pretty (n + 1) item ++ prettyItems n items)

def prettyFields (n : Nat) : List (String × Json) → List Char
  | [] => newline n ++ ['\x7d']
  | (key, value) :: fields =>
    ',' :: (newline (n + 1) ++ quote key ++ ':' :: ' ' :: (pretty (n + 1) value ++
      prettyFields n fields))

end

def compactText (j : Json) : String := String.ofList j.compact

def prettyText (j : Json) : String := String.ofList (j.pretty 0)

end Json

end Pearl
