import Pearl.LanguageDefaults
import Pearl.Scope

/-! # Symbol tables

A table grows by declarations and by scopes that are opened inside others. Scope zero is the
outermost one. An id that names no scope is accepted everywhere: what is declared there is never
found. Ids are counted without a bound, and agree with words of 32 bits in tables that have fewer
than 2 ^ 32 scopes and symbols.
-/

namespace Pearl

inductive SymbolKind where
  | module (scope : ScopeId)
  /-- a procedure without a result type has no value -/
  | procedure (scope : ScopeId) (result : Option Ty)
  | task (scope : ScopeId) (isMain isGlobal : Bool)
  /-- `inv` guards against assignment, so that the value is constant -/
  | variable (ty : Ty) (inv : Bool)
  | semaphore
deriving DecidableEq, Repr

structure Symbol where
  name : String
  kind : SymbolKind
  declaredIn : ScopeId
deriving DecidableEq, Repr

structure SymbolTable where
  scopes : Array Scope
  symbols : Array Symbol
  /-- scopes opened by blocks and loops, the latest first -/
  stmtScopes : List (StmtId × ScopeId)
  defaults : LanguageDefaults
deriving Repr

namespace SymbolTable

def root : ScopeId := ⟨0⟩

/-- The table with the outermost scope alone. -/
def new (defaults : LanguageDefaults) : SymbolTable :=
  { scopes := #[{ id := root, parent := none }]
    symbols := #[]
    stmtScopes := []
    defaults }

def scope? (t : SymbolTable) (id : ScopeId) : Option Scope := t.scopes[id.index]?

def symbol? (t : SymbolTable) (id : SymbolId) : Option Symbol := t.symbols[id.index]?

def parent? (t : SymbolTable) (id : ScopeId) : Option ScopeId :=
  (t.scope? id).bind Scope.parent

/-! ## Growth -/

/-- Open a scope inside `parent`, which need not be there. Its id is the number of scopes so far. -/
def openScope (t : SymbolTable) (parent : ScopeId) : ScopeId × SymbolTable :=
  let id : ScopeId := ⟨t.scopes.size⟩
  (id, { t with scopes := t.scopes.push { id, parent := some parent } })

def setLengths (t : SymbolTable) (scope : ScopeId) (fixed float : Option Precision) :
    SymbolTable :=
  { t with scopes := t.scopes.modify scope.index fun s => s.setLengths fixed float }

/-- Declare a symbol, and bind its name if the scope exists. Its id is the number of symbols so
far. -/
def declare (t : SymbolTable) (scope : ScopeId) (name : String) (kind : SymbolKind) :
    SymbolId × SymbolTable :=
  let id : SymbolId := ⟨t.symbols.size⟩
  (id,
    { t with
      symbols := t.symbols.push ⟨name, kind, scope⟩
      scopes := t.scopes.modify scope.index fun s => s.bind name id })

/-- Declare a symbol that owns a new scope inside the one it is declared in. -/
def openOwner (t : SymbolTable) (scope : ScopeId) (name : String) (kind : ScopeId → SymbolKind) :
    SymbolId × ScopeId × SymbolTable :=
  let (inner, t) := t.openScope scope
  let (id, t) := t.declare scope name (kind inner)
  (id, inner, t)

/-- Modules are declared at the root. -/
def openModule (t : SymbolTable) (name : String) : SymbolId × ScopeId × SymbolTable :=
  t.openOwner root name .module

def openProcedure (t : SymbolTable) (scope : ScopeId) (name : String) (result : Option Ty) :
    SymbolId × ScopeId × SymbolTable :=
  t.openOwner scope name fun inner => .procedure inner result

def openTask (t : SymbolTable) (scope : ScopeId) (name : String) (isMain isGlobal : Bool) :
    SymbolId × ScopeId × SymbolTable :=
  t.openOwner scope name fun inner => .task inner isMain isGlobal

/-- Open the scope of a block or loop. -/
def openStatement (t : SymbolTable) (stmt : StmtId) (parent : ScopeId) : ScopeId × SymbolTable :=
  let (inner, t) := t.openScope parent
  (inner, { t with stmtScopes := (stmt, inner) :: t.stmtScopes })

/-! ## Queries -/

def stmtScope? (t : SymbolTable) (stmt : StmtId) : Option ScopeId :=
  t.stmtScopes.lookup stmt

/-- At most `n` scopes from `id` outward, up to one that does not exist. -/
def outward (t : SymbolTable) : Nat → ScopeId → List Scope
  | 0, _ => []
  | n + 1, id => match t.scope? id with
    | none => []
    | some s => s :: match s.parent with
      | none => []
      | some parent => t.outward n parent

/-- A scope and those around it, from the inside out. A chain that ends has no more scopes than the
table, so that this is all of it. A chain that leads back to a scope on it has no end and is cut
here: `lookup`, `fixedLength` and `floatLength` have an answer then, where a search that follows the
chain would not come to an end unless it finds something. -/
def enclosing (t : SymbolTable) (id : ScopeId) : List Scope := t.outward t.scopes.size id

/-- The symbol of a name in the innermost enclosing scope that binds it. -/
def lookup (t : SymbolTable) (scope : ScopeId) (name : String) : Option SymbolId :=
  (t.enclosing scope).findSome? (·.lookup name)

def lookupHere (t : SymbolTable) (scope : ScopeId) (name : String) : Option SymbolId :=
  (t.scope? scope).bind (·.lookup name)

/-- The innermost `LENGTH FIXED` in effect, else that of the language. -/
def fixedLength (t : SymbolTable) (scope : ScopeId) : Precision :=
  ((t.enclosing scope).findSome? Scope.fixedLength).getD t.defaults.fixedPrecision

/-- The innermost `LENGTH FLOAT` in effect, else that of the language. -/
def floatLength (t : SymbolTable) (scope : ScopeId) : Precision :=
  ((t.enclosing scope).findSome? Scope.floatLength).getD t.defaults.floatPrecision

def isModule (t : SymbolTable) (id : SymbolId) : Bool :=
  match (t.symbol? id).map Symbol.kind with
  | some (.module _) => true
  | _ => false

/-- The modules declared at the root. -/
def modules (t : SymbolTable) : List SymbolId :=
  match t.scope? root with
  | some s => s.declared.filter t.isModule
  | none => []

end SymbolTable

end Pearl
