import Pearl.Tree

/-! # Programs

A program is a tree with its references followed: the expressions and statements in the order and
nesting in which a traversal meets them. A reference that leads to no node becomes a dangling node.

What is below a node is suspended and followed only when it is asked for. A node is met once for
each way that leads to it, and these may be more than can be followed where a traversal ends early.
-/

namespace Pearl

/-- Where an expression stands and how it reads. -/
structure ExprSite where
  id : ExprId
  location : Location
  text : String
deriving DecidableEq, Repr

inductive Expr where
  | dangling (id : ExprId)
  | literal (site : ExprSite) (value : Literal)
  | name (site : ExprSite) (ident : String)
  | monadic (site : ExprSite) (op : Monadic) (operand : Unit → Expr)
  | dyadic (site : ExprSite) (op : Dyadic) (lhs rhs : Unit → Expr)
  | paren (site : ExprSite) (inner : Unit → Expr)
  | attempt (site : ExprSite) (semaphores : List String)
  | now (site : ExprSite)
  | sizeOf (site : ExprSite) (ident : String)
  | taskOf (site : ExprSite) (ident : Option String)
  | cont (site : ExprSite) (inner : Unit → Expr)
  | slice (site : ExprSite) (kind : SliceKind) (target index : Unit → Expr)

namespace Expr

def id : Expr → ExprId
  | .dangling id => id
  | .literal site _ | .name site _ | .monadic site _ _ | .dyadic site _ _ _ | .paren site _
  | .attempt site _ | .now site | .sizeOf site _ | .taskOf site _ | .cont site _
  | .slice site _ _ _ => site.id

/-- A dangling expression has no site. -/
def site? : Expr → Option ExprSite
  | .dangling _ => none
  | .literal site _ | .name site _ | .monadic site _ _ | .dyadic site _ _ _ | .paren site _
  | .attempt site _ | .now site | .sizeOf site _ | .taskOf site _ | .cont site _
  | .slice site _ _ _ => some site

/-- The ids met in an expression, each as often as it is met. -/
def ids : Expr → List ExprId
  | .dangling id => [id]
  | .literal site _ | .name site _ | .attempt site _ | .now site | .sizeOf site _
  | .taskOf site _ => [site.id]
  | .monadic site _ x | .paren site x | .cont site x => site.id :: (x ()).ids
  | .dyadic site _ x y | .slice site _ x y => site.id :: ((x ()).ids ++ (y ()).ids)

end Expr

structure StmtSite where
  id : StmtId
  location : Location
deriving DecidableEq, Repr

inductive Stmt where
  | dangling (id : StmtId)
  | declare (site : StmtSite) (decl : Declaration Expr)
  | assign (site : StmtSite) (target : String) (value : Expr)
  | block (site : StmtSite) (body : List (Unit → Stmt))
  | loop (site : StmtSite) (control : Option String) (clauses : List (Clause × Expr))
      (body : List (Unit → Stmt))
  | branch (site : StmtSite) (condition : Expr) (thenBody elseBody : List (Unit → Stmt))
  | ret (site : StmtSite) (value : Option Expr)
  | eval (site : StmtSite) (expr : Expr)

def Stmt.id : Stmt → StmtId
  | .dangling id => id
  | .declare site _ | .assign site _ _ | .block site _ | .loop site _ _ _ | .branch site _ _ _
  | .ret site _ | .eval site _ => site.id

abbrev Program := List (Module Expr (Unit → Stmt))

/-! ## Following the references of a tree -/

namespace Tree

/-- The expression of an id, at most `n` levels deep. -/
def unfoldExpr (t : Tree) : Nat → ExprId → Expr
  | 0, id => .dangling id
  | n + 1, id => match t.expr? id with
    | none => .dangling id
    | some node =>
      let site : ExprSite := ⟨id, node.location, node.text⟩
      match node.form with
      | .literal value => .literal site value
      | .name ident => .name site ident
      | .monadic op x => .monadic site op fun _ => t.unfoldExpr n x
      | .dyadic op x y => .dyadic site op (fun _ => t.unfoldExpr n x) fun _ => t.unfoldExpr n y
      | .paren x => .paren site fun _ => t.unfoldExpr n x
      | .attempt semaphores => .attempt site semaphores
      | .now => .now site
      | .sizeOf ident => .sizeOf site ident
      | .taskOf ident => .taskOf site ident
      | .cont x => .cont site fun _ => t.unfoldExpr n x
      | .slice kind x y => .slice site kind (fun _ => t.unfoldExpr n x) fun _ => t.unfoldExpr n y

/-- The expression of an id. Deeper than the tree has expressions are only those that lead round in
a circle, where a traversal does the same over and over. -/
def expr (t : Tree) (id : ExprId) : Expr := t.unfoldExpr t.exprs.size id

def declaration (t : Tree) (d : Declaration ExprId) : Declaration Expr :=
  ⟨d.names, d.init.map t.expr, d.location⟩

/-- The statement of an id, at most `n` levels deep. -/
def unfoldStmt (t : Tree) : Nat → StmtId → Stmt
  | 0, id => .dangling id
  | n + 1, id => match t.stmt? id with
    | none => .dangling id
    | some node =>
      let site : StmtSite := ⟨id, node.location⟩
      match node.form with
      | .declare decl => .declare site (t.declaration decl)
      | .assign target value => .assign site target (t.expr value)
      | .block body => .block site (body.map fun id _ => t.unfoldStmt n id)
      | .loop l =>
        .loop site l.control (l.clauses.map fun c => (c.1, t.expr c.2))
          (l.body.map fun id _ => t.unfoldStmt n id)
      | .branch condition thenBody elseBody =>
        .branch site (t.expr condition) (thenBody.map fun id _ => t.unfoldStmt n id)
          (elseBody.map fun id _ => t.unfoldStmt n id)
      | .ret value => .ret site (value.map t.expr)
      | .eval x => .eval site (t.expr x)

/-- The levels of a statement that a traversal can tell apart. What it does at a statement depends
on that and on the scope it stands in, which is the one where it began or one that a statement
opens. Beyond one level for each such pair it goes round in a circle. -/
def stmtLevels (t : Tree) : Nat := t.stmts.size * (t.stmts.size + 1)

/-- The statement of an id. -/
def stmt (t : Tree) (id : StmtId) : Stmt := t.unfoldStmt t.stmtLevels id

def body (t : Tree) (ids : List StmtId) : List (Unit → Stmt) := ids.map fun id _ => t.stmt id

def item (t : Tree) : Item ExprId StmtId → Item Expr (Unit → Stmt)
  | .variable decl => .variable (t.declaration decl)
  | .procedure name body location => .procedure name (t.body body) location
  | .task name priority body location =>
    .task name (priority.map t.expr) (t.body body) location

/-- The program of a tree. -/
def program (t : Tree) : Program :=
  t.modules.map fun m => ⟨m.name, m.items.map t.item, m.location⟩

end Tree

end Pearl
