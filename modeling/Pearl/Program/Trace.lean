import Pearl.Program

/-! # The order of a traversal

A trace lists what a traversal of a program meets, up to an expression where it is told to stop or
to the first dangling node.
-/

namespace Pearl

inductive Event where
  | program
  | module (name : String)
  | variable (names : List String)
  | procedure (name : String)
  | task (name : String)
  | stmt (id : StmtId)
  | assignment (id : StmtId) (target : String)
  | block (id : StmtId)
  | loop (id : StmtId) (control : Option String)
  | clause (clause : Clause)
  | expr (id : ExprId) (text : String)
  | endModule (name : String)
  | endProgram
deriving DecidableEq, Repr

def Clause.text : Clause → String
  | .first => "From"
  | .step => "By"
  | .last => "To"
  | .condition => "While"

namespace Event

def text : Event → String
  | .program => "tree"
  | .module name => "module " ++ name
  | .variable names => "variable " ++ ",".intercalate names
  | .procedure name => "procedure " ++ name
  | .task name => "task " ++ name
  | .stmt id => "stmt " ++ id.text
  | .assignment id target => "assignment " ++ id.text ++ " " ++ target
  | .block id => "block " ++ id.text
  | .loop id control => "loop " ++ id.text ++ " " ++ control.getD "-"
  | .clause c => "clause " ++ c.text
  | .expr id text => "expr " ++ id.text ++ " " ++ text
  | .endModule name => "end module " ++ name
  | .endProgram => "end tree"

def isExpr : Event → Bool
  | .expr .. => true
  | _ => false

end Event

/-- Actions that log events and may end early. -/
abbrev TraceM := ExceptT Halt (StateM (Array Event))

namespace TraceM

def log (e : Event) : TraceM Unit := modify (·.push e)

/-- The outcome and the events logged. -/
def events (act : TraceM Unit) : Except Halt Unit × List Event :=
  let (outcome, log) := (ExceptT.run act).run #[]
  (outcome, log.toList)

end TraceM

open TraceM

variable (stop : Option ExprId)

/-- Log an expression, and refuse it if this is where to stop. -/
def ExprSite.trace (site : ExprSite) : TraceM Unit := do
  log (.expr site.id site.text)
  if stop = some site.id then
    throw (.reported ⟨.illegalExpression, site.location, site.text⟩)

def Expr.trace : Expr → TraceM Unit
  | .dangling _ => throw .danglingReference
  | .literal site _ | .name site _ | .attempt site _ | .now site | .sizeOf site _
  | .taskOf site _ => site.trace stop
  | .monadic site _ x | .paren site x | .cont site x => do
    site.trace stop
    (x ()).trace
  | .dyadic site _ x y | .slice site _ x y => do
    site.trace stop
    (x ()).trace
    (y ()).trace

def Declaration.trace (decl : Declaration Expr) : TraceM Unit := do
  log (.variable decl.names)
  decl.init.forM (Expr.trace stop)

def Clause.trace (clause : Clause × Expr) : TraceM Unit := do
  log (.clause clause.1)
  clause.2.trace stop

mutual

def Stmt.trace : Stmt → TraceM Unit
  | .dangling id => do
    log (.stmt id)
    throw .danglingReference
  | .declare site decl => do
    log (.stmt site.id)
    decl.trace stop
  | .assign site target value => do
    log (.stmt site.id)
    log (.assignment site.id target)
    value.trace stop
  | .block site body => do
    log (.stmt site.id)
    log (.block site.id)
    Stmt.traceAll body
  | .loop site control clauses body => do
    log (.stmt site.id)
    log (.loop site.id control)
    clauses.forM (Clause.trace stop)
    Stmt.traceAll body
  | .branch site condition thenBody elseBody => do
    log (.stmt site.id)
    condition.trace stop
    Stmt.traceAll thenBody
    Stmt.traceAll elseBody
  | .ret site value => do
    log (.stmt site.id)
    value.forM (Expr.trace stop)
  | .eval site x => do
    log (.stmt site.id)
    x.trace stop

def Stmt.traceAll : List (Unit → Stmt) → TraceM Unit
  | [] => pure ()
  | s :: body => do
    Stmt.trace (s ())
    Stmt.traceAll body

end

def Item.trace : Item Expr (Unit → Stmt) → TraceM Unit
  | .variable decl => decl.trace stop
  | .procedure name body _ => do
    log (.procedure name)
    Stmt.traceAll stop body
  | .task name priority body _ => do
    log (.task name)
    priority.forM (Expr.trace stop)
    Stmt.traceAll stop body

def Module.trace (m : Module Expr (Unit → Stmt)) : TraceM Unit := do
  log (.module m.name)
  m.items.forM (Item.trace stop)
  log (.endModule m.name)

def Program.trace (p : Program) : TraceM Unit := do
  log .program
  p.forM (Module.trace stop)
  log .endProgram

/-- What a trace keeps: everything, the expressions, or nothing. -/
inductive Detail where
  | full
  | expressions
  | silent
deriving DecidableEq, Repr

def Detail.keeps : Detail → Event → Bool
  | .full, _ => true
  | .expressions, e => e.isExpr
  | .silent, _ => false

/-- A traversal that keeps nothing meets no expression to stop at. -/
def Program.events (p : Program) (detail : Detail) (stop : Option ExprId) :
    Except Halt Unit × List Event :=
  let stop := if detail = .silent then none else stop
  let (outcome, events) := (p.trace stop).events
  (outcome, events.filter detail.keeps)

end Pearl
