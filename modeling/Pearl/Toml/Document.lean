import Pearl.Toml.Reader

/-! # TOML documents -/

namespace Pearl.Toml

open Scan

inductive Line where
  | keyValue (keys : List String) (value : Value)
  /-- `[a.b]` -/
  | table (keys : List String)
  /-- `[[a.b]]` -/
  | element (keys : List String)
deriving Repr

/-- White space, a comment and the end of a line or of the text. -/
def lineEnd : Scan Unit := do
  blanks
  let _ ← optional comment
  if ← atEnd then pure () else newline

/-- A header in single or double brackets. -/
def header : Scan Line :=
  (do
    word "[["
    let keys ← dottedKey
    word "]]"
    pure (.element keys)) <|>
  (do
    mark '['
    let keys ← dottedKey
    mark ']'
    pure (.table keys))

/-- One line of a document, which may be empty. -/
def line : Scan (Option Line) := do
  blanks
  if ← atEnd then failure
  let content ← match ← peek with
    | some '[' => do pure (some (← header))
    | some '#' | some '\n' | some '\r' => pure none
    | _ => do
      let (keys, v) ← keyValue (value nestingLimit)
      pure (some (.keyValue keys v))
  lineEnd
  pure content

def lines : Scan (List Line) := do
  let ls ← many line
  blanks
  pure (ls.filterMap id)

/-- The table that is being read, and the whole document. -/
structure Reading where
  path : List String := []
  root : Entries := []

namespace Reading

/-- The table of a header. -/
def enter? (r : Reading) (change : String → Entries → Option Entries) (keys : List String) :
    Option Reading := do
  let key ← keys.getLast?
  let root ← Entries.changeAt? (change key) keys.dropLast r.root
  pure ⟨keys, root⟩

def step? (r : Reading) : Line → Option Reading
  | .keyValue keys v => do
    let root ← Entries.changeAt? (fun entries => assign? entries keys v) r.path r.root
    pure { r with root }
  | .table keys => r.enter? Entries.openTable? keys
  | .element keys => r.enter? Entries.openElement? keys

end Reading

/-- A mark of the order of bytes is no part of a document. -/
def withoutMark : List Char → List Char
  | '\ufeff' :: cs => cs
  | cs => cs

/-- The entries of a document. -/
def parse? (text : String) : Option Entries := do
  let ls ← lines.whole (withoutMark text.toList)
  let r ← ls.foldlM Reading.step? {}
  pure r.root

end Pearl.Toml
