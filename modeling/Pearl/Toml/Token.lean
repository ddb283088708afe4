import Pearl.Number.Decimal

/-! # Unquoted TOML values: numbers, dates and times -/

namespace Pearl.Toml

/-- Digits with single underscores between them, given without the underscores. -/
def plainDigits? (isDigit : Char → Bool) : List Char → Option (List Char)
  | [] => none
  | [c] => if isDigit c then some [c] else none
  | c :: '_' :: rest => if isDigit c then (plainDigits? isDigit rest).map (c :: ·) else none
  | c :: rest => if isDigit c then (plainDigits? isDigit rest).map (c :: ·) else none

/-- Decimal digits without an idle zero in front. -/
def wholeDigits? (cs : List Char) : Option (List Char) := do
  let digits ← plainDigits? Char.isDigit cs
  guard !(digits.head? == some '0' && 1 < digits.length)
  pure digits

/-- A sign and what follows it. -/
def signed : List Char → Bool × List Char
  | '-' :: cs => (true, cs)
  | '+' :: cs => (false, cs)
  | cs => (false, cs)

/-! ## Integers -/

/-- The number of digits in a base. -/
def baseValue? (base : Nat) (cs : List Char) : Option Int := do
  let isDigit (c : Char) : Bool := (Text.hexValue? c).any (· < base)
  let digits ← plainDigits? isDigit cs
  pure (digits.foldl (fun n c => n * base + (Text.hexValue? c).getD 0) 0)

/-- A decimal number with an optional sign, or digits of another base after its mark. -/
def integer? (cs : List Char) : Option Int := do
  let n ← match cs with
    | '0' :: 'x' :: cs => baseValue? 16 cs
    | '0' :: 'o' :: cs => baseValue? 8 cs
    | '0' :: 'b' :: cs => baseValue? 2 cs
    | cs =>
      let (minus, cs) := signed cs
      (wholeDigits? cs).map fun digits =>
        if minus then -(Text.digitsValue digits : Int) else Text.digitsValue digits
  guard (Text.FitsWord n)
  pure n

/-! ## Floating-point numbers -/

/-- Whether a text is an exponent: its mark, an optional sign and digits. -/
def exponent? : List Char → Option (List Char)
  | c :: cs =>
    if c == 'e' || c == 'E' then do
      let (minus, cs) := signed cs
      let digits ← plainDigits? Char.isDigit cs
      pure ('e' :: (if minus then '-' :: digits else digits))
    else none
  | [] => none

/-- The places after a point and the exponent, of which at least one is given. -/
def fraction? : List Char → Option (List Char)
  | '.' :: cs => do
    let isMark (c : Char) : Bool := c == 'e' || c == 'E'
    let places ← plainDigits? Char.isDigit (cs.takeWhile fun c => !isMark c)
    let rest := cs.dropWhile fun c => !isMark c
    let exponent ← if rest.isEmpty then pure [] else exponent? rest
    pure ('.' :: places ++ exponent)
  | cs => exponent? cs

/-- A number with places or an exponent, or the name of an infinity or a not-a-number. A number past
the greatest finite value is refused, but not one below the least. -/
def float? (cs : List Char) : Option Binary64 := do
  let (minus, magnitude) := signed cs
  let x ←
    if magnitude = "inf".toList then pure Binary64.infinity
    else if magnitude = "nan".toList then pure Binary64.notANumber
    else do
      let isWhole (c : Char) : Bool := c.isDigit || c == '_'
      let whole ← wholeDigits? (magnitude.takeWhile isWhole)
      let rest ← fraction? (magnitude.dropWhile isWhole)
      let x ← Binary64.read? (whole ++ rest)
      guard (minus || x.isFinite)
      pure x
  pure (if minus then x.neg else x)

/-! ## Dates and times -/

/-- A number of exactly `n` digits, and the rest. -/
def fixedDigits? (n : Nat) (cs : List Char) : Option (Nat × List Char) := do
  let digits := cs.take n
  guard (digits.length == n && digits.all Char.isDigit)
  pure (Text.digitsValue digits, cs.drop n)

def mark? (c : Char) : List Char → Option (List Char)
  | d :: cs => if d = c then some cs else none
  | [] => none

def isLeapYear (year : Nat) : Bool :=
  year % 4 == 0 && (year % 100 != 0 || year % 400 == 0)

def daysIn (year month : Nat) : Nat :=
  if month == 2 then if isLeapYear year then 29 else 28
  else if month == 4 || month == 6 || month == 9 || month == 11 then 30
  else 31

/-- The rest after a date. -/
def afterDate? (cs : List Char) : Option (List Char) := do
  let (year, cs) ← fixedDigits? 4 cs
  let (month, cs) ← fixedDigits? 2 (← mark? '-' cs)
  let (day, cs) ← fixedDigits? 2 (← mark? '-' cs)
  guard (1 ≤ month && month ≤ 12 && 1 ≤ day && day ≤ daysIn year month)
  pure cs

/-- The rest after hours and minutes. -/
def afterMinutes? (cs : List Char) : Option (List Char) := do
  let (hour, cs) ← fixedDigits? 2 cs
  let (minute, cs) ← fixedDigits? 2 (← mark? ':' cs)
  guard (hour ≤ 23 && minute ≤ 59)
  pure cs

/-- The rest after a time. A minute may have a leap second. -/
def afterTime? (cs : List Char) : Option (List Char) := do
  let cs ← afterMinutes? cs
  let (second, cs) ← fixedDigits? 2 (← mark? ':' cs)
  guard (second ≤ 60)
  match cs with
  | '.' :: cs =>
    guard !(cs.takeWhile Char.isDigit).isEmpty
    pure (cs.dropWhile Char.isDigit)
  | cs => pure cs

/-- Whether a text is a distance from universal time, or nothing. -/
def isOffset : List Char → Bool
  | [] | ['Z'] | ['z'] => true
  | '+' :: cs | '-' :: cs => afterMinutes? cs == some []
  | _ => false

def isDate (cs : List Char) : Bool := afterDate? cs == some []

def isTime (cs : List Char) : Bool := afterTime? cs == some []

/-- A time that may have an offset. -/
def isOffsetTime (cs : List Char) : Bool := (afterTime? cs).any isOffset

/-- A date, a time, or both with a letter between them. -/
def isMoment (cs : List Char) : Bool :=
  isTime cs || match afterDate? cs with
    | some [] => true
    | some ('T' :: cs) | some ('t' :: cs) => isOffsetTime cs
    | _ => false

end Pearl.Toml
