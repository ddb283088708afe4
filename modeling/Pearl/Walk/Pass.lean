import Pearl.Program
import Pearl.Walk

/-! # Passes over a program

A pass says what to do at an expression, and how a loop clause and an assignment change the context
of their expression. All passes share the order of the traversal and the scopes it enters.
-/

namespace Pearl

structure Pass (σ : Type) where
  expr : Expr → Walk σ Unit
  /-- run the expression of a loop clause -/
  clause : Clause → Walk σ Unit → Walk σ Unit
  /-- run the value of an assignment to a target -/
  assignment : Location → String → Walk σ Unit → Walk σ Unit

/-- The name that the `i`-th initialiser belongs to. The last name takes those beyond the names. -/
def Declaration.nameOf? {ε : Type} (decl : Declaration ε) (i : Nat) : Option String :=
  decl.names[i]? <|> decl.names.getLast?

namespace Pass

open Walk

variable {σ : Type} (pass : Pass σ)

/-- Run one initialiser with the precisions of its variable. -/
def initializer (decl : Declaration Expr) (i : Nat) (init : Expr) : Walk σ Unit := do
  let some name := decl.nameOf? i
    | report (.internal decl.location "declaration without names")
  let some site := init.site?
    | throw .danglingReference
  let c ← context
  let precisions ← ofExcept (c.initializerPrecisions name site.location)
  initializing precisions (pass.expr init)

/-- Run initialisers, the first of which is the `i`-th of its declaration. -/
def initializers (decl : Declaration Expr) : Nat → List Expr → Walk σ Unit
  | _, [] => pure ()
  | i, init :: rest => do
    pass.initializer decl i init
    initializers decl (i + 1) rest

def declaration (decl : Declaration Expr) : Walk σ Unit := pass.initializers decl 0 decl.init

def clauses : List (Clause × Expr) → Walk σ Unit
  | [] => pure ()
  | (clause, x) :: rest => do
    pass.clause clause (pass.expr x)
    clauses rest

def optional : Option Expr → Walk σ Unit
  | none => pure ()
  | some x => pass.expr x

mutual

def stmt : Stmt → Walk σ Unit
  | .dangling _ => throw .danglingReference
  | .declare _ decl => pass.declaration decl
  | .assign site target value => pass.assignment site.location target (pass.expr value)
  | .block site body => inStatement site.id site.location (stmts body)
  | .loop site _ clauses body =>
    inStatement site.id site.location do
      pass.clauses clauses
      stmts body
  | .branch _ condition thenBody elseBody => do
    pass.expr condition
    stmts thenBody
    stmts elseBody
  | .ret _ value => pass.optional value
  | .eval _ x => pass.expr x

def stmts : List (Unit → Stmt) → Walk σ Unit
  | [] => pure ()
  | s :: rest => do
    stmt (s ())
    stmts rest

end

def item : Item Expr (Unit → Stmt) → Walk σ Unit
  | .variable decl => pass.declaration decl
  | .procedure name body location => inOwner .procedure name location (pass.stmts body)
  | .task name priority body location =>
    inOwner .task name location do
      pass.optional priority
      pass.stmts body

def items : List (Item Expr (Unit → Stmt)) → Walk σ Unit
  | [] => pure ()
  | i :: rest => do
    pass.item i
    items rest

def module (m : Module Expr (Unit → Stmt)) : Walk σ Unit :=
  inOwner .module m.name m.location (pass.items m.items)

def program : Program → Walk σ Unit
  | [] => pure ()
  | m :: rest => do
    pass.module m
    program rest

/-- Run a pass over a program from the root of a table, and give the store it ends with. -/
def run (table : SymbolTable) (store : σ) (p : Program) : Except Halt σ :=
  let (outcome, w) := (pass.program p).runFrom ⟨.new table, store⟩
  outcome.map fun _ => w.store

end Pass

end Pearl
