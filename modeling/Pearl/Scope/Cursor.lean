import Pearl.SymbolTable

/-! # Cursors

A cursor stands in one scope of a table and remembers the scopes it came through.
-/

namespace Pearl

structure Cursor where
  table : SymbolTable
  /-- the scopes entered, the current one first -/
  stack : List ScopeId
deriving Repr

namespace Cursor

/-- A cursor at the root. -/
def new (table : SymbolTable) : Cursor := ⟨table, [SymbolTable.root]⟩

def current (c : Cursor) : ScopeId := c.stack.headD SymbolTable.root

def depth (c : Cursor) : Nat := c.stack.length

def enter (c : Cursor) (scope : ScopeId) : Cursor := { c with stack := scope :: c.stack }

/-- The scope that is left and the cursor after that. The last scope is never left. -/
def leave (c : Cursor) : Option ScopeId × Cursor :=
  match c.stack with
  | scope :: rest@(_ :: _) => (some scope, { c with stack := rest })
  | _ => (none, c)

/-- Leaving undoes entering, for a cursor that stands somewhere. -/
theorem leave_enter (c : Cursor) (scope : ScopeId) (h : c.stack ≠ []) :
    (c.enter scope).leave = (some scope, c) := by
  obtain ⟨table, stack⟩ := c
  cases stack with
  | nil => contradiction
  | cons _ _ => rfl

def lookup (c : Cursor) (name : String) : Option SymbolId := c.table.lookup c.current name

def lookupHere (c : Cursor) (name : String) : Option SymbolId :=
  c.table.lookupHere c.current name

def fixedLength (c : Cursor) : Precision := c.table.fixedLength c.current

def floatLength (c : Cursor) : Precision := c.table.floatLength c.current

end Cursor

end Pearl
