import Mathlib.Data.List.Basic
import Pearl.Proofs.InTurn
import Pearl.Proofs.Program.Occurrence

/-! # A traversal that gets through meets everything

Where all that has to be found is found, the agenda of a program visits its expressions in order and
leaves none out, so that the literals with positions are the literals of the program.
-/

namespace Pearl

/-- A traversal goes on after the errand, as far as that depends on the symbol table. -/
def Errand.Passed (table : SymbolTable) : Errand → Prop
  | .resolve r => r.outcome table = .ok ()
  | .visit .. => True
  | .missing => False

/-- The expression of a visit. -/
def Errand.expr? : Errand → Option Expr
  | .visit _ _ x => some x
  | .resolve _ | .missing => none

/-- The errands visit some of the given expressions in order, and all of them if every errand is
passed. -/
structure Visits (table : SymbolTable) (errands : List Errand) (xs : List Expr) : Prop where
  sublist : (errands.filterMap Errand.expr?).Sublist xs
  all : (∀ e ∈ errands, e.Passed table) → errands.filterMap Errand.expr? = xs

variable {table : SymbolTable} {scope : ScopeId} {errands errands' : List Errand}
  {xs ys : List Expr}

theorem visits_nil : Visits table [] [] := ⟨.slnil, fun _ => rfl⟩

theorem visits_visit (place : ExprPlace) (x : Expr) : Visits table [.visit scope place x] [x] :=
  ⟨.refl _, fun _ => rfl⟩

theorem visits_missing : Visits table [.missing] xs :=
  ⟨List.nil_sublist xs, fun h => (h _ (List.mem_singleton_self _)).elim⟩

/-- Something that is not found has no part in the visits. -/
theorem visits_unfound {r : Resolution} (hr : r.outcome table ≠ .ok ()) :
    Visits table [.resolve r] xs :=
  ⟨List.nil_sublist xs, fun h => (hr (h _ (List.mem_singleton_self _))).elim⟩

/-- Something that is found is passed. -/
theorem Visits.found (r : Resolution) (h : Visits table errands xs) :
    Visits table (.resolve r :: errands) xs :=
  ⟨h.sublist, fun hpass => h.all (List.forall_mem_cons.mp hpass).2⟩

theorem Visits.append (h : Visits table errands xs) (h' : Visits table errands' ys) :
    Visits table (errands ++ errands') (xs ++ ys) := by
  constructor
  · rw [List.filterMap_append]
    exact h.sublist.append h'.sublist
  · intro hpass
    obtain ⟨hleft, hright⟩ := List.forall_mem_append.mp hpass
    rw [List.filterMap_append, h.all hleft, h'.all hright]

/-- After a resolution there is what was found. -/
theorem visits_resolve {α : Type} {r : Resolution} {found : Except Diagnostic α}
    {agenda : α → List Errand} (hr : r.outcome table = found.map fun _ => ())
    (h : ∀ a, Visits table (agenda a) xs) :
    Visits table (.resolve r :: inFound found agenda) xs := by
  cases found with
  | error d => exact visits_unfound (hr.trans_ne nofun)
  | ok a => exact (h a).found r

theorem visits_flatMap {α : Type} {agenda : α → List Errand} {exprs : α → List Expr}
    (h : ∀ a, Visits table (agenda a) (exprs a)) (as : List α) :
    Visits table (as.flatMap agenda) (as.flatMap exprs) := by
  induction as with
  | nil => exact visits_nil
  | cons a as ih => exact (h a).append ih

theorem visits_initializer (decl : Declaration Expr) (i : Nat) (x : Expr) :
    Visits table (decl.initializerAgenda table scope i x) [x] := by
  unfold Declaration.initializerAgenda
  cases decl.nameOf? i with
  | none => exact visits_unfound nofun
  | some name =>
    cases x.site? with
    | none => exact visits_missing
    | some site =>
      dsimp only
      cases hty : table.variableHere? scope name with
      | none =>
        refine visits_unfound ?_
        rw [Resolution.outcome, hty]
        nofun
      | some ty => exact (visits_visit (.initial ty) x).found _

theorem visits_initializers (decl : Declaration Expr) (i : Nat) (xs : List Expr) :
    Visits table (decl.initializersAgenda table scope i xs) xs := by
  induction xs generalizing i with
  | nil => exact visits_nil
  | cons x xs ih => exact (visits_initializer decl i x).append (ih (i + 1))

theorem visits_clauses (clauses : List (Clause × Expr)) :
    Visits table (clausesAgenda scope clauses) (clauses.map Prod.snd) := by
  induction clauses with
  | nil => exact visits_nil
  | cons c rest ih => exact (visits_visit (.clause c.1) c.2).append ih

theorem visits_optional (x : Option Expr) : Visits table (optionalAgenda scope x) x.toList := by
  cases x with
  | none => exact visits_nil
  | some x => exact visits_visit .plain x

mutual

theorem visits_stmt : ∀ (s : Stmt) (scope : ScopeId), Visits table (s.agenda table scope) s.exprs
  | .dangling _, _ => visits_missing
  | .declare _ decl, _ => visits_initializers decl 0 decl.init
  | .assign site target value, _ => visits_visit (.assigned site.location target) value
  | .block _ body, _ => visits_resolve rfl (visits_stmts body)
  | .loop _ _ clauses body, _ =>
    visits_resolve rfl fun inner => (visits_clauses clauses).append (visits_stmts body inner)
  | .branch _ condition thenBody elseBody, scope =>
    (visits_visit .plain condition).append
      ((visits_stmts thenBody scope).append (visits_stmts elseBody scope))
  | .ret _ value, _ => visits_optional value
  | .eval _ x, _ => visits_visit .plain x

theorem visits_stmts : ∀ (body : List (Unit → Stmt)) (scope : ScopeId),
    Visits table (Stmt.agendaAll table scope body) (Stmt.exprsAll body)
  | [], _ => visits_nil
  | s :: rest, scope => (visits_stmt (s ()) scope).append (visits_stmts rest scope)

end

theorem visits_item (scope : ScopeId) (i : Item Expr (Unit → Stmt)) :
    Visits table (i.agenda table scope) i.exprs := by
  match i with
  | .variable decl => exact visits_initializers decl 0 decl.init
  | .procedure _ body _ => exact visits_resolve rfl (visits_stmts body)
  | .task _ priority body _ =>
    exact visits_resolve rfl fun inner =>
      (visits_optional priority).append (visits_stmts body inner)

namespace Program

theorem visits_exprs (p : Program) : Visits table (p.agenda table) p.exprs :=
  visits_flatMap
    (fun m => visits_resolve rfl fun inner => visits_flatMap (visits_item inner) m.items) p

/-- The expressions that are visited are those of the program, in order. -/
theorem visits_agenda (p : Program) (h : ∀ e ∈ p.agenda table, e.Passed table) :
    (p.agenda table).filterMap Errand.expr? = p.exprs := p.visits_exprs.all h

theorem mem_exprs_of_visit {p : Program} {scope : ScopeId} {place : ExprPlace} {x : Expr}
    (h : .visit scope place x ∈ p.agenda table) : x ∈ p.exprs :=
  p.visits_exprs.sublist.subset (List.mem_filterMap.mpr ⟨_, h, rfl⟩)

end Program

/-! ## Literals -/

theorem Expr.occurrences_eq_literals (scope : ScopeId) (place : ExprPlace) (x : Expr) :
    (x.occurrences scope place).map (fun o => (o.site, o.value)) = x.literals := by
  induction x with
  | dangling | literal | name | attempt | now | sizeOf | taskOf => rfl
  | monadic site op x ih =>
    rcases minus_literal_or op (x ()) with ⟨rfl, inner, value, hx⟩ | hx
    · rw [occurrences_minus_literal hx, literals, hx]
      rfl
    · rw [occurrences_monadic hx]
      exact ih ()
  | paren _ x ih | cont _ x ih => exact ih ()
  | dyadic _ _ x y ihx ihy | slice _ _ x y ihx ihy =>
    rw [occurrences, List.map_append, ihx (), ihy (), literals]

def Errand.occurrences : Errand → List Occurrence
  | .visit scope place x => x.occurrences scope place
  | .resolve _ | .missing => []

namespace Program

variable (table) (p : Program)

theorem occurrences_eq_flatMap :
    p.occurrences table = (p.agenda table).flatMap Errand.occurrences := by
  unfold occurrences demands
  rw [List.filterMap_flatMap]
  congr 1
  funext e
  cases e with
  | resolve | missing => rfl
  | visit scope place x =>
    rw [Errand.demands, List.filterMap_map]
    exact List.filterMap_some

theorem occurrences_eq_literals (h : ∀ e ∈ p.agenda table, e.Passed table) :
    (p.occurrences table).map (fun o => (o.site, o.value)) = p.literals := by
  rw [literals, ← visits_agenda p h, occurrences_eq_flatMap, List.map_flatMap,
    List.filterMap_eq_flatMap_toList, List.flatMap_assoc]
  congr 1
  funext e
  cases e with
  | resolve | missing => rfl
  | visit scope place x =>
    rw [Errand.occurrences, x.occurrences_eq_literals]
    exact (List.flatMap_singleton ..).symm

end Program

end Pearl
