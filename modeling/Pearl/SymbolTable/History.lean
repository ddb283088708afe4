import Pearl.SymbolTable

/-! # Histories of symbol tables -/

namespace Pearl.SymbolTable

/-- One growth step of a table. -/
inductive Step where
  | module (name : String)
  | procedure (scope : ScopeId) (name : String) (result : Option Ty)
  | task (scope : ScopeId) (name : String) (isMain isGlobal : Bool)
  | variable (scope : ScopeId) (name : String) (ty : Ty) (inv : Bool)
  | semaphore (scope : ScopeId) (name : String)
  /-- a symbol of any kind, whose scope is not opened here -/
  | declare (scope : ScopeId) (name : String) (kind : SymbolKind)
  | openScope (parent : ScopeId)
  | setLengths (scope : ScopeId) (fixed float : Option Precision)
  | openStatement (stmt : StmtId) (parent : ScopeId)
deriving Repr

/-- The symbol and the scope that a step made. -/
structure Made where
  symbol : Option SymbolId := none
  scope : Option ScopeId := none
deriving DecidableEq, Repr

def owner : SymbolId × ScopeId × SymbolTable → Made × SymbolTable
  | (id, inner, t) => ({ symbol := some id, scope := some inner }, t)

def single : SymbolId × SymbolTable → Made × SymbolTable
  | (id, t) => ({ symbol := some id }, t)

def opened : ScopeId × SymbolTable → Made × SymbolTable
  | (inner, t) => ({ scope := some inner }, t)

def perform (t : SymbolTable) : Step → Made × SymbolTable
  | .module name => owner (t.openModule name)
  | .procedure scope name result => owner (t.openProcedure scope name result)
  | .task scope name isMain isGlobal => owner (t.openTask scope name isMain isGlobal)
  | .variable scope name ty inv => single (t.declare scope name (.variable ty inv))
  | .semaphore scope name => single (t.declare scope name .semaphore)
  | .declare scope name kind => single (t.declare scope name kind)
  | .openScope parent => opened (t.openScope parent)
  | .setLengths scope fixed float => ({}, t.setLengths scope fixed float)
  | .openStatement stmt parent => opened (t.openStatement stmt parent)

/-- The table after a history of steps. -/
def run (t : SymbolTable) (steps : List Step) : SymbolTable :=
  steps.foldl (fun t step => (t.perform step).2) t

end Pearl.SymbolTable
