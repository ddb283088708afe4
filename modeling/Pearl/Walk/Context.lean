import Pearl.Literal.Denotation
import Pearl.Scope.Cursor

/-! # What a traversal knows where it stands -/

namespace Pearl

/-- Declarations that own a scope. -/
inductive Owner where
  | module
  | procedure
  | task
deriving DecidableEq, Repr

/-- The scope of a symbol that is an owner of the given form. -/
def Owner.scopeOf? : Owner → SymbolKind → Option ScopeId
  | .module, .module scope | .procedure, .procedure scope _ | .task, .task scope _ _ => some scope
  | _, _ => none

structure Context where
  cursor : Cursor
  /-- precision that an enclosing assignment imposes on fixed literals -/
  assigned : Option Precision := none
  /-- whether fixed literals take the least width that holds them, as in the bounds of a loop -/
  inBound : Bool := false
  /-- precisions that an enclosing initialiser puts in place of those of the scope -/
  initial : Option Precisions := none
deriving Repr

namespace Context

/-- The context at the root of a table. -/
def new (table : SymbolTable) : Context := { cursor := .new table }

def table (c : Context) : SymbolTable := c.cursor.table

def scope (c : Context) : ScopeId := c.cursor.current

/-- The precisions in effect for literals that state none. -/
def precisions (c : Context) : Precisions :=
  c.initial.getD ⟨c.cursor.fixedLength, c.cursor.floatLength⟩

def lookup? (c : Context) (name : String) : Option Symbol :=
  (c.cursor.lookup name).bind c.table.symbol?

def lookupHere? (c : Context) (name : String) : Option Symbol :=
  (c.cursor.lookupHere name).bind c.table.symbol?

/-- The precisions of literals that initialise a variable of the given type: those of the language,
but a float variable has one of its own. -/
def initializerPrecisionsOf (c : Context) (ty : Ty) : Precisions :=
  ⟨c.table.defaults.fixedPrecision,
    match ty.scalar with
    | .float g => g
    | _ => c.table.defaults.floatPrecision⟩

/-- The precisions of literals that initialise `name`, a variable of the current scope. -/
def initializerPrecisions (c : Context) (name : String) (location : Location) :
    Except Diagnostic Precisions :=
  match (c.lookupHere? name).map Symbol.kind with
  | some (.variable ty _) => .ok (c.initializerPrecisionsOf ty)
  | _ => .error (.internal location name)

/-- The scope of the owner `name` declared in the current scope. -/
def ownerScope (c : Context) (owner : Owner) (name : String) (location : Location) :
    Except Diagnostic ScopeId :=
  match (c.lookupHere? name).bind fun s => owner.scopeOf? s.kind with
  | some scope => .ok scope
  | none => .error (.internal location name)

/-- The scope that a block or loop opens. -/
def stmtScope (c : Context) (stmt : StmtId) (location : Location) :
    Except Diagnostic ScopeId :=
  match c.table.stmtScope? stmt with
  | some scope => .ok scope
  | none => .error (.internal location ("no scope bound to " ++ stmt.text))

def enter (c : Context) (scope : ScopeId) : Context := { c with cursor := c.cursor.enter scope }

def leave (c : Context) : Context := { c with cursor := c.cursor.leave.2 }

end Context

end Pearl
