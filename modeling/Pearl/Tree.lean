import Pearl.Diagnostic
import Pearl.Ident
import Pearl.Literal
import Pearl.Operator

/-! # Trees

A tree keeps the expressions and statements of a unit side by side, and nodes refer to one another
by id. A reference may lead to a node that is made later, or to none.
-/

namespace Pearl

inductive SliceKind where
  | bit
  | char
deriving DecidableEq, Repr

def SliceKind.selector : SliceKind → String
  | .bit => "BIT"
  | .char => "CHAR"

/-! ## Expressions -/

inductive ExprForm where
  | literal (value : Literal)
  | name (ident : String)
  | monadic (op : Monadic) (operand : ExprId)
  | dyadic (op : Dyadic) (lhs rhs : ExprId)
  | paren (inner : ExprId)
  /-- `TRY` of some semaphores -/
  | attempt (semaphores : List String)
  | now
  | sizeOf (ident : String)
  /-- `TASK`, or `TASK` of a name -/
  | taskOf (ident : Option String)
  | cont (inner : ExprId)
  | slice (kind : SliceKind) (target index : ExprId)
deriving DecidableEq, Repr

namespace ExprForm

/-- The direct operands, in the order of evaluation. -/
def children : ExprForm → List ExprId
  | .monadic _ x | .paren x | .cont x => [x]
  | .dyadic _ x y | .slice _ x y => [x, y]
  | .literal _ | .name _ | .attempt _ | .now | .sizeOf _ | .taskOf _ => []

end ExprForm

/-- Source text of an operator and its operand: no blank after a sign. -/
def Monadic.applied (op : Monadic) (operand : String) : String :=
  match op with
  | .plus | .minus => op.symbol ++ operand
  | _ => op.symbol ++ " " ++ operand

def Dyadic.applied (op : Dyadic) (lhs rhs : String) : String :=
  lhs ++ " " ++ op.symbol ++ " " ++ rhs

def SliceKind.applied (kind : SliceKind) (target index : String) : String :=
  target ++ "." ++ kind.selector ++ "(" ++ index ++ ")"

def taskText : Option String → String
  | none => "TASK"
  | some ident => "TASK(" ++ ident ++ ")"

/-- The source text of an expression, from the texts of its operands. -/
def ExprForm.render (textOf : ExprId → String) : ExprForm → String
  | .literal l => l.text
  | .name ident => ident
  | .monadic op x => op.applied (textOf x)
  | .dyadic op x y => op.applied (textOf x) (textOf y)
  | .paren x => "(" ++ textOf x ++ ")"
  | .attempt semaphores => "TRY " ++ ",".intercalate semaphores
  | .now => "NOW"
  | .sizeOf ident => "SIZEOF " ++ ident
  | .taskOf ident => taskText ident
  | .cont x => "CONT " ++ textOf x
  | .slice kind x y => kind.applied (textOf x) (textOf y)

structure ExprNode where
  form : ExprForm
  location : Location
  /-- source text, for diagnostics -/
  text : String
deriving DecidableEq, Repr

/-! ## Statements -/

/-- Declared names and their initialisers. -/
structure Declaration (ε : Type) where
  names : List String
  init : List ε
  location : Location
deriving DecidableEq, Repr

/-- The clauses of a loop: `FROM`, `BY`, `TO` and `WHILE`. -/
inductive Clause where
  | first
  | step
  | last
  | condition
deriving DecidableEq, Repr

structure Loop where
  control : Option String
  first : Option ExprId
  step : Option ExprId
  last : Option ExprId
  condition : Option ExprId
  body : List StmtId
deriving DecidableEq, Repr

/-- The clauses that are given, in source order. -/
def Loop.clauses (l : Loop) : List (Clause × ExprId) :=
  (l.first.map (Clause.first, ·)).toList ++ (l.step.map (Clause.step, ·)).toList ++
    (l.last.map (Clause.last, ·)).toList ++ (l.condition.map (Clause.condition, ·)).toList

inductive StmtForm where
  | declare (decl : Declaration ExprId)
  | assign (target : String) (value : ExprId)
  | block (body : List StmtId)
  | loop (loop : Loop)
  | branch (condition : ExprId) (thenBody elseBody : List StmtId)
  | ret (value : Option ExprId)
  | eval (expr : ExprId)
deriving DecidableEq, Repr

structure StmtNode where
  form : StmtForm
  location : Location
deriving DecidableEq, Repr

/-! ## Modules -/

/-- What a module declares, over the types of its expressions and statements. -/
inductive Item (ε σ : Type) where
  | variable (decl : Declaration ε)
  | procedure (name : String) (body : List σ) (location : Location)
  | task (name : String) (priority : Option ε) (body : List σ) (location : Location)
deriving DecidableEq, Repr

structure Module (ε σ : Type) where
  name : String
  items : List (Item ε σ)
  location : Location
deriving DecidableEq, Repr

structure Tree where
  modules : List (Module ExprId StmtId) := []
  exprs : Array ExprNode := #[]
  stmts : Array StmtNode := #[]
deriving DecidableEq, Repr

namespace Tree

def expr? (t : Tree) (id : ExprId) : Option ExprNode := t.exprs[id.index]?

def stmt? (t : Tree) (id : StmtId) : Option StmtNode := t.stmts[id.index]?

end Tree

end Pearl
