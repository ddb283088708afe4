/-! # Scanners

A scanner takes a part off the front of a text, or fails.
-/

namespace Pearl

abbrev Scan := StateT (List Char) Option

namespace Scan

variable {α β : Type}

/-- What a scanner reads from the whole of a text. -/
def whole (scan : Scan α) (cs : List Char) : Option α :=
  match scan.run cs with
  | some (a, []) => some a
  | _ => none

def peek : Scan (Option Char) := do return (← get).head?

def atEnd : Scan Bool := do return (← get).isEmpty

def next : Scan Char := do
  match ← get with
  | [] => failure
  | c :: cs =>
    set cs
    pure c

/-- The next character, if it satisfies `p`. -/
def one (p : Char → Bool) : Scan Char := do
  let c ← next
  guard (p c)
  pure c

def mark (c : Char) : Scan Unit := do
  let _ ← one (· == c)

def word (text : String) : Scan Unit := text.toList.forM mark

/-- The longest run of characters that satisfy `p`, which may be empty. -/
def run (p : Char → Bool) : Scan (List Char) :=
  modifyGet fun cs => (cs.takeWhile p, cs.dropWhile p)

/-- A run of one character or more. -/
def run1 (p : Char → Bool) : Scan (List Char) := do
  let cs ← run p
  guard !cs.isEmpty
  pure cs

/-- As often as the scanner succeeds, but at most `n` times. -/
def upTo : Nat → Scan α → Scan (List α)
  | 0, _ => pure []
  | n + 1, scan => (do
      let a ← scan
      let rest ← upTo n scan
      pure (a :: rest)) <|> pure []

/-- As often as the scanner succeeds. A scanner that takes a character each time succeeds no more
often than there are characters. -/
def many (scan : Scan α) : Scan (List α) := do upTo (← get).length scan

/-- One or more, divided by `divider`. -/
def divided (scan : Scan α) (divider : Scan β) : Scan (List α) := do
  let first ← scan
  let rest ← many (do
    let _ ← divider
    scan)
  pure (first :: rest)

end Scan

end Pearl
