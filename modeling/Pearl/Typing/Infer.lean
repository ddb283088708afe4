import Pearl.Operator.Rule
import Pearl.Typing.Table
import Pearl.Walk.Pass

/-! # Typing the expressions of a program

Expressions are typed bottom-up into a table, and an operator finds the types of its operands there.
A fixed literal takes, by rising priority, the precision of its scope, the one it states, that of an
assignment's target, and its least width in a loop bound.
-/

namespace Pearl.TypingTable

open Walk

abbrev Infer := Walk TypingTable

/-- The type of a literal with the given constant. -/
def literalTy (c : Context) : Constant → Ty
  | .fixed v g => .fixed (if c.inBound then fixedWidth v else c.assigned.getD g)
  | constant => constant.ty

def inferLiteral (site : ExprSite) (value : Literal) : Infer Typing := do
  let c ← context
  let constant ← ofExcept (value.denote ⟨site.location, site.text⟩ c.precisions)
  pure (.ofConstant (literalTy c constant))

/-- The type of a variable where it is named: an array stands for one of its elements. -/
def elementTy : Ty → Ty
  | .array t => t
  | t => t

/-- What is known of a name that stands for a symbol. -/
def symbolTyping (id : SymbolId) : SymbolKind → Option Typing
  | .variable ty inv => some ⟨elementTy ty, inv, some id⟩
  | .procedure _ (some ty) => some (.runtime ty)
  | _ => none

def inferName (site : ExprSite) (ident : String) : Infer Typing := do
  let c ← context
  let some id := c.cursor.lookup ident
    | report ⟨.unknownIdentifier, site.location, ident⟩
  let some r := (c.table.symbol? id).bind fun s => symbolTyping id s.kind
    | report (.internal site.location ident)
  pure r

/-- The width of a negated fixed literal in a loop bound, where sign and number are one value. None
for any other operand. -/
def negativeBound? (site : ExprSite) : Expr → Infer (Option Ty)
  | .literal inner value => do
    let c ← context
    match ← ofExcept (value.denoteNegated ⟨inner.location, site.text⟩ c.precisions) with
    | some (.fixed v _) => pure (some (.fixed (fixedWidth v)))
    | _ => pure none
  | _ => pure none

/-- What the table says of an operand, with an action of choice for an operand that it does not
know. -/
def knownOr (missing : Expr → Infer Typing) (x : Expr) : Infer Typing := do
  let table ← store
  match table.get? x.id with
  | some r => pure r
  | none => missing x

/-- The report on an operand that the table does not know. -/
def unentered (x : Expr) : Infer Typing :=
  match x.site? with
  | some site => report (.internal site.location site.text)
  | none => throw .danglingReference

/-- What the table says of an operand that has been typed. -/
def known (x : Expr) : Infer Typing := knownOr unentered x

/-- The outcome of an operator's rule at an expression. -/
def ruled (site : ExprSite) : Except Violation Ty → Infer Ty
  | .ok ty => pure ty
  | .error v => throw (v.halt site.location site.text)

def enter (id : ExprId) (r : Typing) : Infer Unit := modifyStore (·.insert id r)

/-- Type an expression and everything below it, with an action of choice for operands that the
table does not know. -/
def inferOr (missing : Expr → Infer Typing) : Expr → Infer Unit
  | .dangling _ => throw .danglingReference
  | .literal site value => do enter site.id (← inferLiteral site value)
  | .name site ident => do enter site.id (← inferName site ident)
  | .monadic site op x => do
    let c ← context
    let bound ← if op = .minus ∧ c.inBound then negativeBound? site (x ()) else pure none
    match bound with
    | some ty =>
      enter (x ()).id (.ofConstant ty)
      enter site.id (.ofConstant ty)
    | none =>
      inferOr missing (x ())
      let r ← knownOr missing (x ())
      let ty ← ruled site (op.result r.ty)
      enter site.id ⟨ty, r.constant, none⟩
  | .dyadic site op x y => do
    inferOr missing (x ())
    let r ← knownOr missing (x ())
    inferOr missing (y ())
    let s ← knownOr missing (y ())
    let c ← context
    let ty ← ruled site (op.result c.table.defaults.durationRatioPrecision r.ty s.ty)
    enter site.id ⟨ty, r.constant && s.constant, none⟩
  | .paren site x => do
    inferOr missing (x ())
    enter site.id (← knownOr missing (x ()))
  | .attempt site semaphores =>
    if semaphores.isEmpty then report (.internal site.location site.text)
    else enter site.id (.runtime (.bit 1))
  | .now site => enter site.id (.runtime .clock)
  | .sizeOf site _ => do
    let c ← context
    enter site.id (.runtime (.fixed c.table.defaults.fixedLength))
  | .taskOf site _ => enter site.id (.runtime .task)
  | .cont site x => do
    inferOr missing (x ())
    match (← knownOr missing (x ())).ty with
    | .reference target => enter site.id (.runtime target)
    | _ => report ⟨.illegalExpression, site.location, site.text⟩
  | .slice site kind x y => do
    inferOr missing (x ())
    inferOr missing (y ())
    enter site.id (.runtime (match kind with
      | .bit => .bit 1
      | .char => .char 1))

/-- Type an expression and everything below it. -/
def infer (x : Expr) : Infer Unit := inferOr unentered x

/-- The bounds of a loop are typed at their least width. -/
def inferClause (clause : Clause) (act : Infer Unit) : Infer Unit :=
  match clause with
  | .first | .step | .last => bounding true act
  | .condition => act

/-- The precision that a variable imposes on fixed literals assigned to it. -/
def assignedLength (ty : Ty) : Option Precision :=
  match ty.scalar with
  | .fixed g => some g
  | _ => none

def inferAssignment (location : Location) (target : String) (act : Infer Unit) : Infer Unit := do
  let c ← context
  match (c.lookup? target).map Symbol.kind with
  | some (.variable ty _) => assigning (assignedLength ty) act
  | _ => report ⟨.unknownIdentifier, location, target⟩

def inferring : Pass TypingTable where
  expr := infer
  clause := inferClause
  assignment := inferAssignment

/-- The types of a program with at most `n` expressions. -/
def ofProgram (table : SymbolTable) (n : Nat) (p : Program) : Except Halt TypingTable :=
  inferring.run table (withRoom n) p

end Pearl.TypingTable
