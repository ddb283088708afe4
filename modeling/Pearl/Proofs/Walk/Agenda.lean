import Pearl.Walk.Pass

/-! # The agenda of a traversal

What a traversal has to do in a program, as a flat list in the order in which it comes up: scopes
and variables to resolve, and expressions to visit, each in its scope and at its place. What lies
inside a scope that cannot be resolved is left out, since no traversal gets there.
-/

namespace Pearl

/-- The same context, standing in one scope without a way that led there. -/
def Context.inside (c : Context) (scope : ScopeId) : Context :=
  { c with cursor := ⟨c.table, [scope]⟩ }

/-- The type of a variable of the given scope. -/
def SymbolTable.variableHere? (table : SymbolTable) (scope : ScopeId) (name : String) : Option Ty :=
  match (((Context.new table).inside scope).lookupHere? name).map Symbol.kind with
  | some (.variable ty _) => some ty
  | _ => none

/-- The type of a variable of the given scope or of one around it. -/
def SymbolTable.visibleVariable? (table : SymbolTable) (scope : ScopeId) (name : String) :
    Option Ty :=
  match (((Context.new table).inside scope).lookup? name).map Symbol.kind with
  | some (.variable ty _) => some ty
  | _ => none

/-- Where an expression stands. -/
inductive ExprPlace where
  | plain
  | clause (clause : Clause)
  /-- the value of an assignment to a target -/
  | assigned (location : Location) (target : String)
  /-- an initialiser of a variable of the given type -/
  | initial (ty : Ty)
deriving DecidableEq, Repr

/-- Something to be found in the symbol table. -/
inductive Resolution where
  | owner (scope : ScopeId) (form : Owner) (name : String) (location : Location)
  | statement (stmt : StmtId) (location : Location)
  /-- the variable that an initialiser belongs to -/
  | variable (scope : ScopeId) (name : String) (location : Location)
  /-- an initialiser of a declaration without names, which belongs to none -/
  | nameless (location : Location)
deriving DecidableEq, Repr

/-- The scope that a module, procedure or task opens inside a scope. -/
def SymbolTable.ownerScope (table : SymbolTable) (scope : ScopeId) (owner : Owner) (name : String)
    (location : Location) : Except Diagnostic ScopeId :=
  ((Context.new table).inside scope).ownerScope owner name location

def Resolution.outcome (table : SymbolTable) : Resolution → Except Diagnostic Unit
  | .owner scope form name location =>
    (table.ownerScope scope form name location).map fun _ => ()
  | .statement stmt location => ((Context.new table).stmtScope stmt location).map fun _ => ()
  | .variable scope name location => match table.variableHere? scope name with
    | some _ => .ok ()
    | none => .error (.internal location name)
  | .nameless location => .error (.internal location "declaration without names")

inductive Errand where
  | resolve (r : Resolution)
  | visit (scope : ScopeId) (place : ExprPlace) (x : Expr)
  /-- a node that is not there -/
  | missing

variable (table : SymbolTable)

/-- What there is to do with something that must be found first. -/
def inFound {α : Type} (found : Except Diagnostic α) (agenda : α → List Errand) : List Errand :=
  match found with
  | .ok a => agenda a
  | .error _ => []

/-- The `i`-th initialiser of a declaration: its name, its variable, and then the expression. -/
def Declaration.initializerAgenda (scope : ScopeId) (decl : Declaration Expr) (i : Nat) (x : Expr) :
    List Errand :=
  match decl.nameOf? i, x.site? with
  | none, _ => [.resolve (.nameless decl.location)]
  | some _, none => [.missing]
  | some name, some site =>
    .resolve (.variable scope name site.location) :: match table.variableHere? scope name with
      | some ty => [.visit scope (.initial ty) x]
      | none => []

def Declaration.initializersAgenda (scope : ScopeId) (decl : Declaration Expr) :
    Nat → List Expr → List Errand
  | _, [] => []
  | i, x :: rest =>
    decl.initializerAgenda table scope i x ++ decl.initializersAgenda scope (i + 1) rest

def Declaration.agenda (scope : ScopeId) (decl : Declaration Expr) : List Errand :=
  decl.initializersAgenda table scope 0 decl.init

def clausesAgenda (scope : ScopeId) (clauses : List (Clause × Expr)) : List Errand :=
  clauses.map fun c => .visit scope (.clause c.1) c.2

def optionalAgenda (scope : ScopeId) (x : Option Expr) : List Errand :=
  (x.map (.visit scope .plain)).toList

mutual

def Stmt.agenda (scope : ScopeId) : Stmt → List Errand
  | .dangling _ => [.missing]
  | .declare _ decl => decl.agenda table scope
  | .assign site target value => [.visit scope (.assigned site.location target) value]
  | .block site body =>
    .resolve (.statement site.id site.location) ::
      inFound ((Context.new table).stmtScope site.id site.location) fun inner =>
        Stmt.agendaAll inner body
  | .loop site _ clauses body =>
    .resolve (.statement site.id site.location) ::
      inFound ((Context.new table).stmtScope site.id site.location) fun inner =>
        clausesAgenda inner clauses ++ Stmt.agendaAll inner body
  | .branch _ condition thenBody elseBody =>
    .visit scope .plain condition ::
      (Stmt.agendaAll scope thenBody ++ Stmt.agendaAll scope elseBody)
  | .ret _ value => optionalAgenda scope value
  | .eval _ x => [.visit scope .plain x]

def Stmt.agendaAll (scope : ScopeId) : List (Unit → Stmt) → List Errand
  | [] => []
  | s :: rest => Stmt.agenda scope (s ()) ++ Stmt.agendaAll scope rest

end

theorem Stmt.agendaAll_eq_flatMap (scope : ScopeId) (body : List (Unit → Stmt)) :
    agendaAll table scope body = body.flatMap fun s => (s ()).agenda table scope := by
  induction body with
  | nil => rfl
  | cons s body ih => rw [agendaAll, ih, List.flatMap_cons]

def Item.agenda (scope : ScopeId) : Item Expr (Unit → Stmt) → List Errand
  | .variable decl => decl.agenda table scope
  | .procedure name body location =>
    .resolve (.owner scope .procedure name location) ::
      inFound (table.ownerScope scope .procedure name location) fun inner =>
        Stmt.agendaAll table inner body
  | .task name priority body location =>
    .resolve (.owner scope .task name location) ::
      inFound (table.ownerScope scope .task name location) fun inner =>
        optionalAgenda inner priority ++ Stmt.agendaAll table inner body

def Module.agenda (scope : ScopeId) (m : Module Expr (Unit → Stmt)) : List Errand :=
  .resolve (.owner scope .module m.name m.location) ::
    inFound (table.ownerScope scope .module m.name m.location) fun inner =>
      m.items.flatMap (Item.agenda table inner)

/-- The agenda of a program that is traversed from the root. -/
def Program.agenda (p : Program) : List Errand := p.flatMap (Module.agenda table SymbolTable.root)

end Pearl
