import Pearl.Json.Basic

/-! # Scanning JSON text

Each scanner takes a part off the front of a text and gives what it read and the rest. A part that
is not wanted is skipped: its form is checked, but escapes need not denote characters.
-/

namespace Pearl.Json

def isBlank (c : Char) : Bool := c == ' ' || c == '\n' || c == '\t' || c == '\r'

def skipBlanks (cs : List Char) : List Char := cs.dropWhile isBlank

/-- The rest after the next character that is no blank, if that is `c`. -/
def mark? (c : Char) (cs : List Char) : Option (List Char) :=
  match skipBlanks cs with
  | d :: rest => if d = c then some rest else none
  | [] => none

/-- The rest after a word that stands next. -/
def word? (word : String) (cs : List Char) : Option (List Char) :=
  let cs := skipBlanks cs
  if word.toList.isPrefixOf cs then some (cs.drop word.length) else none

/-! ## Strings -/

/-- The number of four hexadecimal digits. -/
def hex4? (a b c d : Char) : Option Nat := do
  return ((← Text.hexValue? a) * 16 + (← Text.hexValue? b)) * 256 + (← Text.hexValue? c) * 16 +
    (← Text.hexValue? d)

def isHighSurrogate (n : Nat) : Bool := 0xD800 ≤ n && n ≤ 0xDBFF

def isLowSurrogate (n : Nat) : Bool := 0xDC00 ≤ n && n ≤ 0xDFFF

/-- The character of a pair of surrogates. -/
def paired (high low : Nat) : Char :=
  Char.ofNat (0x10000 + (high - 0xD800) * 0x400 + (low - 0xDC00))

/-- The character of an escape of one letter. -/
def unescape? : Char → Option Char
  | '"' => some '"'
  | '\\' => some '\\'
  | '/' => some '/'
  | 'b' => some '\x08'
  | 'f' => some '\x0c'
  | 'n' => some '\n'
  | 'r' => some '\r'
  | 't' => some '\t'
  | _ => none

/-- The content of a string after its opening quote. -/
def readContent : List Char → Option (List Char × List Char)
  | [] => none
  | '"' :: rest => some ([], rest)
  | ['\\'] => none
  | '\\' :: 'u' :: a :: b :: c :: d :: rest => do
    let n ← hex4? a b c d
    if isHighSurrogate n then
      match rest with
      | '\\' :: 'u' :: e :: f :: g :: h :: rest =>
        let m ← hex4? e f g h
        guard (isLowSurrogate m)
        let (content, rest) ← readContent rest
        pure (paired n m :: content, rest)
      | _ => none
    else
      guard !(isLowSurrogate n)
      let (content, rest) ← readContent rest
      pure (Char.ofNat n :: content, rest)
  | '\\' :: c :: rest => do
    let c ← unescape? c
    let (content, rest) ← readContent rest
    pure (c :: content, rest)
  | c :: rest => do
    guard !(c < ' ')
    let (content, rest) ← readContent rest
    pure (c :: content, rest)

/-- The string that stands next. -/
def readString (cs : List Char) : Option (String × List Char) := do
  let rest ← mark? '"' cs
  let (content, rest) ← readContent rest
  pure (String.ofList content, rest)

/-- The rest after a string whose opening quote has been read. -/
def skipContent : List Char → Option (List Char)
  | [] => none
  | '"' :: rest => some rest
  | ['\\'] => none
  | '\\' :: 'u' :: a :: b :: c :: d :: rest => do
    let _ ← hex4? a b c d
    skipContent rest
  | '\\' :: c :: rest => do
    let _ ← unescape? c
    skipContent rest
  | c :: rest => if c < ' ' then none else skipContent rest

/-! ## Numbers -/

/-- One or more digits. -/
def skipDigits (cs : List Char) : Option (List Char) :=
  if (cs.takeWhile Char.isDigit).isEmpty then none else some (cs.dropWhile Char.isDigit)

def skipExponent : List Char → Option (List Char)
  | 'e' :: '+' :: cs | 'e' :: '-' :: cs | 'E' :: '+' :: cs | 'E' :: '-' :: cs
  | 'e' :: cs | 'E' :: cs => skipDigits cs
  | cs => some cs

def skipPlaces : List Char → Option (List Char)
  | '.' :: cs => skipDigits cs
  | cs => some cs

/-- Digits without an idle zero in front. -/
def wholeDigits (cs : List Char) : Option (List Char × List Char) :=
  let digits := cs.takeWhile Char.isDigit
  if digits.isEmpty || (digits.head? == some '0' && 1 < digits.length) then none
  else some (digits, cs.dropWhile Char.isDigit)

def skipNumber (cs : List Char) : Option (List Char) := do
  let cs := match cs with
    | '-' :: cs => cs
    | cs => cs
  let (_, cs) ← wholeDigits cs
  skipExponent (← skipPlaces cs)

/-- A whole number below `limit`, without sign, places or exponent. -/
def readNatBelow (limit : Nat) (cs : List Char) : Option (Nat × List Char) := do
  let (digits, rest) ← wholeDigits (skipBlanks cs)
  guard !(rest.head? == some '.' || rest.head? == some 'e' || rest.head? == some 'E')
  let n := Text.digitsValue digits
  guard (decide (n < limit))
  pure (n, rest)

/-! ## Any value -/

mutual

/-- The rest after a value. -/
def skipValue : Nat → List Char → Option (List Char)
  | 0, _ => none
  | n + 1, cs => match skipBlanks cs with
    | '"' :: rest => skipContent rest
    | '[' :: rest => mark? ']' rest <|> skipItems n rest
    | '\x7b' :: rest => mark? '\x7d' rest <|> skipFields n rest
    | cs => word? "null" cs <|> word? "true" cs <|> word? "false" cs <|> skipNumber cs

/-- The rest after one or more items and the closing bracket. -/
def skipItems : Nat → List Char → Option (List Char)
  | 0, _ => none
  | n + 1, cs => do
    let cs ← skipValue n cs
    match mark? ',' cs with
    | some cs => skipItems n cs
    | none => mark? ']' cs

/-- The rest after one or more fields and the closing brace. -/
def skipFields : Nat → List Char → Option (List Char)
  | 0, _ => none
  | n + 1, cs => do
    let cs ← skipContent (← mark? '"' cs)
    let cs ← skipValue n (← mark? ':' cs)
    match mark? ',' cs with
    | some cs => skipFields n cs
    | none => mark? '\x7d' cs

end

/-- The rest after a value. Two steps are enough for each character. -/
def skip (cs : List Char) : Option (List Char) := skipValue (2 * cs.length + 2) cs

/-- A whole text, with nothing but blanks around what is read. -/
def whole {α : Type} (read : List Char → Option (α × List Char)) (text : String) : Option α := do
  let (a, rest) ← read text.toList
  guard (skipBlanks rest).isEmpty
  pure a

end Pearl.Json
