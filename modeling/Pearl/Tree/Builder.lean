import Pearl.Tree

/-! # Building trees

Nodes carry the location that was set last. The text of an expression is put together from the texts
of its operands; an operand that is not there reads as a question mark. The id of a node is the
number of those before it, with fewer than 2 ^ 32 of them.
-/

namespace Pearl

structure Builder where
  tree : Tree := {}
  location : Location := .unknown
deriving Repr

namespace Builder

/-- Set the location of the nodes that follow. -/
def locate (b : Builder) (location : Location) : Builder := { b with location }

/-- Add an expression with a text of its own. -/
def exprAs (b : Builder) (form : ExprForm) (text : String) : ExprId × Builder :=
  (⟨b.tree.exprs.size⟩,
    { b with tree := { b.tree with exprs := b.tree.exprs.push ⟨form, b.location, text⟩ } })

def textOf (b : Builder) (id : ExprId) : String :=
  match b.tree.expr? id with
  | some node => node.text
  | none => "?"

/-- Add an expression. -/
def expr (b : Builder) (form : ExprForm) : ExprId × Builder :=
  b.exprAs form (form.render b.textOf)

/-- Add a statement. -/
def stmt (b : Builder) (form : StmtForm) : StmtId × Builder :=
  (⟨b.tree.stmts.size⟩,
    { b with tree := { b.tree with stmts := b.tree.stmts.push ⟨form, b.location⟩ } })

def declaration (b : Builder) (names : List String) (init : List ExprId) : Declaration ExprId :=
  ⟨names, init, b.location⟩

def procedure (b : Builder) (name : String) (body : List StmtId) : Item ExprId StmtId :=
  .procedure name body b.location

def task (b : Builder) (name : String) (priority : Option ExprId) (body : List StmtId) :
    Item ExprId StmtId :=
  .task name priority body b.location

/-- Add a module at the end of the unit. -/
def module (b : Builder) (name : String) (items : List (Item ExprId StmtId)) : Builder :=
  { b with tree := { b.tree with modules := b.tree.modules ++ [⟨name, items, b.location⟩] } }

end Builder

end Pearl
