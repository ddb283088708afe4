import Pearl.Constant.Pool
import Pearl.Walk.Pass

/-! # Collecting the constants of a program

Every literal is pooled at the precisions in effect where it stands. A minus sign directly before a
numeric literal belongs to the number.
-/

namespace Pearl.Pool

open Walk

/-- Pool a constant. -/
def insert (c : Constant) : Walk Pool Unit := modifyStore fun p => (p.add c).2

def collectLiteral (site : ExprSite) (value : Literal) : Walk Pool Unit := do
  let c ← context
  insert (← ofExcept (value.denote ⟨site.location, site.text⟩ c.precisions))

/-- Pool the literal `inner` after the minus sign at `site`. -/
def collectNegated (site inner : ExprSite) (value : Literal) : Walk Pool Unit := do
  let c ← context
  match ← ofExcept (value.denoteNegated ⟨inner.location, site.text⟩ c.precisions) with
  | some constant => insert constant
  | none => collectLiteral inner value

/-- Pool the literals of an expression. -/
def collect : Expr → Walk Pool Unit
  | .dangling _ => throw .danglingReference
  | .literal site value => collectLiteral site value
  | .monadic site op x => match op, x () with
    | .minus, .literal inner value => collectNegated site inner value
    | _, _ => collect (x ())
  | .name .. | .attempt .. | .now .. | .sizeOf .. | .taskOf .. => pure ()
  | .paren _ x | .cont _ x => collect (x ())
  | .dyadic _ _ x y | .slice _ _ x y => do
    collect (x ())
    collect (y ())

/-- Loop clauses and assignments do not change how literals are pooled. -/
def collecting : Pass Pool where
  expr := collect
  clause _ act := act
  assignment _ _ act := act

/-- The pool of a program, added to a given pool. -/
def collectInto (table : SymbolTable) (pool : Pool) (p : Program) : Except Halt Pool :=
  collecting.run table pool p

/-- The pool of a program, after 0, 1 and -1 at the precision of the language. -/
def ofProgram (table : SymbolTable) (p : Program) : Except Halt Pool :=
  collectInto table (basic table.defaults.fixedPrecision) p

end Pearl.Pool
