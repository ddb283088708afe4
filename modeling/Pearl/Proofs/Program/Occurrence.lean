import Pearl.Proofs.Literal.Negation
import Pearl.Proofs.Walk.Agenda

/-! # Literals where they occur

The literals of a program in the order in which a traversal meets them, each with its position: the
scope and the place where its expression stands, and the minus sign directly before it, if there is
one. A minus sign belongs to the number after it, and the two are one constant.
-/

namespace Pearl

/-! ## What a program consists of -/

/-- The literals of an expression from left to right. -/
def Expr.literals : Expr → List (ExprSite × Literal)
  | .literal site value => [(site, value)]
  | .dangling _ | .name .. | .attempt .. | .now _ | .sizeOf .. | .taskOf .. => []
  | .monadic _ _ x | .paren _ x | .cont _ x => (x ()).literals
  | .dyadic _ _ x y | .slice _ _ x y => (x ()).literals ++ (y ()).literals

mutual

/-- The expressions of a statement, in the order of a traversal. -/
def Stmt.exprs : Stmt → List Expr
  | .dangling _ => []
  | .declare _ decl => decl.init
  | .assign _ _ value => [value]
  | .block _ body => Stmt.exprsAll body
  | .loop _ _ clauses body => clauses.map Prod.snd ++ Stmt.exprsAll body
  | .branch _ condition thenBody elseBody =>
    condition :: (Stmt.exprsAll thenBody ++ Stmt.exprsAll elseBody)
  | .ret _ value => value.toList
  | .eval _ x => [x]

def Stmt.exprsAll : List (Unit → Stmt) → List Expr
  | [] => []
  | s :: rest => Stmt.exprs (s ()) ++ Stmt.exprsAll rest

end

def Item.exprs : Item Expr (Unit → Stmt) → List Expr
  | .variable decl => decl.init
  | .procedure _ body _ => Stmt.exprsAll body
  | .task _ priority body _ => priority.toList ++ Stmt.exprsAll body

namespace Program

/-- The expressions of a program that stand in no other expression. -/
def exprs (p : Program) : List Expr := p.flatMap fun m => m.items.flatMap Item.exprs

/-- The ids met in a program, each as often as it is met. -/
def exprIds (p : Program) : List ExprId := p.exprs.flatMap Expr.ids

def literals (p : Program) : List (ExprSite × Literal) := p.exprs.flatMap Expr.literals

end Program

/-! ## Positions of literals -/

/-- A literal and its position. -/
structure Occurrence where
  scope : ScopeId
  place : ExprPlace
  /-- the minus sign directly before the literal -/
  sign : Option ExprSite
  site : ExprSite
  value : Literal
deriving DecidableEq, Repr

/-- The literals of an expression with their positions, from left to right. -/
def Expr.occurrences (scope : ScopeId) (place : ExprPlace) : Expr → List Occurrence
  | .literal site value => [⟨scope, place, none, site, value⟩]
  | .dangling _ | .name .. | .attempt .. | .now _ | .sizeOf .. | .taskOf .. => []
  | .monadic site op x => match op, x () with
    | .minus, .literal inner value => [⟨scope, place, some site, inner, value⟩]
    | _, _ => (x ()).occurrences scope place
  | .paren _ x | .cont _ x => (x ()).occurrences scope place
  | .dyadic _ _ x y | .slice _ _ x y =>
    (x ()).occurrences scope place ++ (y ()).occurrences scope place

/-- An operator and its operand are a minus sign and a literal, or they are not. -/
theorem Expr.minus_literal_or (op : Monadic) (x : Expr) :
    (op = .minus ∧ ∃ site value, x = .literal site value) ∨
      ∀ site value, op = .minus → x ≠ .literal site value := by
  by_cases hop : op = .minus
  · cases x with
    | literal site value => exact .inl ⟨hop, site, value, rfl⟩
    | _ => exact .inr fun _ _ _ h => nomatch h
  · exact .inr fun _ _ h => (hop h).elim

section Occurrences

variable {scope : ScopeId} {place : ExprPlace} {site inner : ExprSite} {value : Literal}
  {op : Monadic} {x : Unit → Expr}

theorem Expr.occurrences_minus_literal (h : x () = .literal inner value) :
    (Expr.monadic site .minus x).occurrences scope place =
      [⟨scope, place, some site, inner, value⟩] := by
  simp only [Expr.occurrences, h]

theorem Expr.occurrences_monadic (h : ∀ inner value, op = .minus → x () ≠ .literal inner value) :
    (Expr.monadic site op x).occurrences scope place = (x ()).occurrences scope place := by
  rw [Expr.occurrences]
  exact h

end Occurrences

/-- What is to be settled before a constant can be pooled: a scope or variable, or the constant
itself. -/
inductive Demand where
  | resolve (r : Resolution)
  | literal (o : Occurrence)

def Errand.demands : Errand → List Demand
  | .resolve r => [.resolve r]
  | .visit scope place x => (x.occurrences scope place).map .literal
  | .missing => []

def Demand.occurrence? : Demand → Option Occurrence
  | .resolve _ => none
  | .literal o => some o

namespace Program

/-- The demands of a program, in the order of a traversal. -/
def demands (table : SymbolTable) (p : Program) : List Demand :=
  (p.agenda table).flatMap Errand.demands

/-- The literals of a program with their positions, in the order of a traversal. -/
def occurrences (table : SymbolTable) (p : Program) : List Occurrence :=
  (p.demands table).filterMap Demand.occurrence?

end Program

/-! ## Constants of literals -/

/-- The precisions in effect for a literal that states none: those of the initialised variable, else
those of the scope. -/
def ExprPlace.precisions (table : SymbolTable) (scope : ScopeId) : ExprPlace → Precisions
  | .initial ty => ⟨table.defaults.fixedPrecision, match ty.scalar with
      | .float g => g
      | _ => table.defaults.floatPrecision⟩
  | .plain | .clause _ | .assigned .. => ⟨table.fixedLength scope, table.floatLength scope⟩

namespace Occurrence

/-- Whether the literal is a number that a minus sign belongs to. -/
def isNegated (o : Occurrence) : Bool := o.sign.isSome && o.value.isNumeric

/-- The constant of the literal with its sign, from the one without. -/
def signed (o : Occurrence) (c : Constant) : Constant := if o.isNegated then c.opposite else c

/-- Where a fault of the literal is reported: at the literal, with the text of the whole number. -/
def blamed (o : Occurrence) : LiteralSite :=
  ⟨o.site.location, match o.sign with
    | some minus => if o.value.isNumeric then minus.text else o.site.text
    | none => o.site.text⟩

/-- The constant of a literal at its position. -/
def constant (table : SymbolTable) (o : Occurrence) : Except Diagnostic Constant := do
  let c ← o.value.denote o.blamed (o.place.precisions table o.scope)
  if o.isNegated then
    if c.opposite.Fits then pure c.opposite else throw o.blamed.outOfRange
  else pure c

end Occurrence

/-- The fault of a demand that cannot be met. -/
def Demand.fault? (table : SymbolTable) : Demand → Option Diagnostic
  | .resolve r => match r.outcome table with
    | .ok _ => none
    | .error d => some d
  | .literal o => match o.constant table with
    | .ok _ => none
    | .error d => some d

end Pearl
