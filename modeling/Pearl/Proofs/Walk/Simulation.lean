import Pearl.Proofs.InTurn
import Pearl.Proofs.Walk.Agenda

/-! # A pass carries out its agenda

A pass over a program does the same as carrying out the errands of the agenda in turn, and the
context is afterwards what it was before. The pass must be steady for that: what it does at an
expression depends on the scope where it stands, and not on the way that led there, and it leaves
the context as it was.
-/

namespace Pearl

open Walk

namespace Context

variable (c : Context) (scope : ScopeId)

theorem leave_enter (h : c.cursor.stack ≠ []) : (c.enter scope).leave = c := by
  unfold enter leave
  simp only [Cursor.leave_enter c.cursor scope h]

theorem enter_stack_ne_nil : (c.enter scope).cursor.stack ≠ [] := List.cons_ne_nil _ _

theorem initializerPrecisions_eq (name : String) (location : Location) :
    c.initializerPrecisions name location = match c.table.variableHere? c.scope name with
      | some ty => .ok (c.initializerPrecisionsOf ty)
      | none => .error (.internal location name) := by
  have h : (((Context.new c.table).inside c.scope).lookupHere? name) = c.lookupHere? name := rfl
  unfold initializerPrecisions SymbolTable.variableHere?
  rw [h]
  generalize (c.lookupHere? name).map Symbol.kind = kind
  split <;> simp_all

end Context

namespace Walk

variable {α σ : Type}

/-- From a context, an action does what is listed in turn, and leaves the context as it was. -/
def DoesInTurn (perform : α → σ → Except Halt Unit × σ) (c : Context) (act : Walk σ Unit)
    (as : List α) : Prop :=
  ∀ s, act.runFrom ⟨c, s⟩ = ((inTurn perform as s).1, ⟨c, (inTurn perform as s).2⟩)

variable {perform : α → σ → Except Halt Unit × σ} {c : Context} {act act' : Walk σ Unit}
  {as bs : List α}

theorem doesInTurn_pure : DoesInTurn perform c (pure ()) [] := fun _ => rfl

theorem DoesInTurn.bind (h : DoesInTurn perform c act as) (h' : DoesInTurn perform c act' bs) :
    DoesInTurn perform c (act >>= fun _ => act') (as ++ bs) := by
  intro s
  rw [runFrom_bind, h s, inTurn_append]
  obtain ⟨outcome, s'⟩ := inTurn perform as s
  cases outcome with
  | error e => rfl
  | ok u => exact h' s'

/-- An action that leaves a changed context as it was leaves the context before the change. -/
theorem DoesInTurn.bracket {change : Context → Context} {restore : Context → Context → Context}
    (hrestore : restore c (change c) = c) (h : DoesInTurn perform (change c) act as) :
    DoesInTurn perform c (bracket change restore act) as := by
  intro s
  rw [runFrom_bracket, h s, hrestore]

end Walk

namespace Pass

variable {σ : Type} (pass : Pass σ)

/-- Run a pass on an expression at its place. -/
def visit (x : Expr) : ExprPlace → Walk σ Unit
  | .plain => pass.expr x
  | .clause clause => pass.clause clause (pass.expr x)
  | .assigned location target => pass.assignment location target (pass.expr x)
  | .initial ty => do
    let c ← context
    initializing (c.initializerPrecisionsOf ty) (pass.expr x)

/-- What a pass does at an expression depends on the current scope, not on the scopes it came
through, and the context stays as it was. -/
def Steady : Prop :=
  ∀ (x : Expr) (place : ExprPlace) (c : Context) (s : σ),
    (pass.visit x place).runFrom ⟨c, s⟩ =
      (((pass.visit x place).runFrom ⟨c.inside c.scope, s⟩).1,
        ⟨c, ((pass.visit x place).runFrom ⟨c.inside c.scope, s⟩).2.store⟩)

/-- Carry out an errand, in a context that may already be changed by what stands around the
program. -/
def perform (c : Context) : Errand → σ → Except Halt Unit × σ
  | .resolve r, s => ((r.outcome c.table).mapError .reported, s)
  | .visit scope place x, s =>
    (((pass.visit x place).runFrom ⟨c.inside scope, s⟩).1,
      ((pass.visit x place).runFrom ⟨c.inside scope, s⟩).2.store)
  | .missing, s => (.error .danglingReference, s)

@[simp] theorem perform_enter (c : Context) (scope : ScopeId) :
    pass.perform (c.enter scope) = pass.perform c := by
  funext errand
  cases errand <;> rfl

/-- From a context, an action does what the errands say. -/
def CarriesOut (c : Context) (act : Walk σ Unit) (errands : List Errand) : Prop :=
  DoesInTurn (pass.perform c) c act errands

variable {pass} {c : Context} {act : Walk σ Unit} {errands : List Errand}

/-! ## Actions and errands -/

theorem carriesOut_throw : pass.CarriesOut c (throw .danglingReference) [.missing] := fun _ => rfl

theorem carriesOut_context {next : Context → Walk σ Unit}
    (h : pass.CarriesOut c (next c) errands) : pass.CarriesOut c (context >>= next) errands := by
  intro s
  rw [runFrom_bind, runFrom_context]
  exact h s

/-- A resolution that fails ends the walk, and otherwise the walk goes on with what was found. -/
theorem carriesOut_ofExcept {α : Type} {next : α → Walk σ Unit} (r : Resolution)
    (found : Except Diagnostic α) (errands : α → List Errand)
    (hr : r.outcome c.table = found.map fun _ => ())
    (h : ∀ a, found = .ok a → pass.CarriesOut c (next a) (errands a)) :
    pass.CarriesOut c (ofExcept found >>= next)
      (.resolve r :: inFound found errands) := by
  intro s
  have hp : pass.perform c (.resolve r) s = ((found.map fun _ => ()).mapError .reported, s) := by
    rw [← hr]
    rfl
  rw [runFrom_bind, runFrom_ofExcept, inTurn_cons, hp]
  cases found with
  | error d => rfl
  | ok a => exact h a rfl s

theorem CarriesOut.inScope (hc : c.cursor.stack ≠ []) {scope : ScopeId}
    (h : pass.CarriesOut (c.enter scope) act errands) :
    pass.CarriesOut c (inScope scope act) errands := by
  unfold CarriesOut at h ⊢
  rw [perform_enter] at h
  exact h.bracket (c.leave_enter scope hc)

theorem carriesOut_inOwner (hc : c.cursor.stack ≠ []) (owner : Owner) (name : String)
    (location : Location) {errands : ScopeId → List Errand}
    (h : ∀ scope, pass.CarriesOut (c.enter scope) act (errands scope)) :
    pass.CarriesOut c (inOwner owner name location act)
      (.resolve (.owner c.scope owner name location) ::
        inFound (c.table.ownerScope c.scope owner name location) errands) := by
  refine carriesOut_context ?_
  exact carriesOut_ofExcept (.owner c.scope owner name location) _ errands rfl
    fun scope _ => (h scope).inScope hc

theorem carriesOut_inStatement (hc : c.cursor.stack ≠ []) (stmt : StmtId) (location : Location)
    {errands : ScopeId → List Errand}
    (h : ∀ scope, pass.CarriesOut (c.enter scope) act (errands scope)) :
    pass.CarriesOut c (inStatement stmt location act)
      (.resolve (.statement stmt location) ::
        inFound ((Context.new c.table).stmtScope stmt location) errands) := by
  refine carriesOut_context ?_
  exact carriesOut_ofExcept (.statement stmt location) _ errands rfl
    fun scope _ => (h scope).inScope hc

/-! ## Parts of a program -/

section Steady

variable (hp : pass.Steady)
include hp

theorem carriesOut_visit (x : Expr) (place : ExprPlace) :
    pass.CarriesOut c (pass.visit x place) [.visit c.scope place x] := by
  intro s
  rw [inTurn_singleton]
  exact hp x place c s

theorem carriesOut_initializer (decl : Declaration Expr) (i : Nat) (x : Expr) :
    pass.CarriesOut c (pass.initializer decl i x)
      (decl.initializerAgenda c.table c.scope i x) := by
  unfold initializer Declaration.initializerAgenda
  cases decl.nameOf? i with
  | none => exact fun s => rfl
  | some name =>
    cases x.site? with
    | none => exact carriesOut_throw
    | some site =>
      refine carriesOut_context ?_
      rw [c.initializerPrecisions_eq]
      dsimp only
      have hr : (Resolution.variable c.scope name site.location).outcome c.table =
          match c.table.variableHere? c.scope name with
          | some _ => .ok ()
          | none => .error (.internal site.location name) := rfl
      cases hty : c.table.variableHere? c.scope name with
      | none =>
        rw [hty] at hr
        refine carriesOut_ofExcept _ (.error (.internal site.location name)) (fun _ => []) hr ?_
        intro precisions h
        cases h
      | some ty =>
        rw [hty] at hr
        refine carriesOut_ofExcept _ (.ok (c.initializerPrecisionsOf ty))
          (fun _ => [.visit c.scope (.initial ty) x]) hr ?_
        intro precisions h s
        cases h
        rw [← carriesOut_visit hp x (.initial ty) s]
        simp only [visit, runFrom_bind, runFrom_context]

theorem carriesOut_initializers (decl : Declaration Expr) (i : Nat) (xs : List Expr) :
    pass.CarriesOut c (pass.initializers decl i xs)
      (decl.initializersAgenda c.table c.scope i xs) := by
  induction xs generalizing i with
  | nil => exact doesInTurn_pure
  | cons x xs ih => exact (carriesOut_initializer hp decl i x).bind (ih (i + 1))

theorem carriesOut_clauses (clauses : List (Clause × Expr)) :
    pass.CarriesOut c (pass.clauses clauses) (clausesAgenda c.scope clauses) := by
  induction clauses with
  | nil => exact doesInTurn_pure
  | cons clause rest ih => exact (carriesOut_visit hp clause.2 (.clause clause.1)).bind ih

theorem carriesOut_optional (x : Option Expr) :
    pass.CarriesOut c (pass.optional x) (optionalAgenda c.scope x) := by
  cases x with
  | none => exact doesInTurn_pure
  | some x => exact carriesOut_visit hp x .plain

end Steady

mutual

theorem carriesOut_stmt (hp : pass.Steady) : ∀ (s : Stmt) {c : Context}, c.cursor.stack ≠ [] →
    pass.CarriesOut c (pass.stmt s) (s.agenda c.table c.scope)
  | .dangling _, _, _ => carriesOut_throw
  | .declare _ decl, _, _ => carriesOut_initializers hp decl 0 decl.init
  | .assign site target value, _, _ => carriesOut_visit hp value (.assigned site.location target)
  | .block site body, c, hc => by
    refine carriesOut_inStatement hc site.id site.location fun inner => ?_
    exact carriesOut_stmts hp body (c.enter_stack_ne_nil inner)
  | .loop site _ clauses body, c, hc => by
    refine carriesOut_inStatement hc site.id site.location fun inner => ?_
    exact (carriesOut_clauses hp clauses).bind
      (carriesOut_stmts hp body (c.enter_stack_ne_nil inner))
  | .branch _ condition thenBody elseBody, _, hc =>
    (carriesOut_visit hp condition .plain).bind
      ((carriesOut_stmts hp thenBody hc).bind (carriesOut_stmts hp elseBody hc))
  | .ret _ value, _, _ => carriesOut_optional hp value
  | .eval _ x, _, _ => carriesOut_visit hp x .plain

theorem carriesOut_stmts (hp : pass.Steady) :
    ∀ (body : List (Unit → Stmt)) {c : Context}, c.cursor.stack ≠ [] →
    pass.CarriesOut c (pass.stmts body) (Stmt.agendaAll c.table c.scope body)
  | [], _, _ => doesInTurn_pure
  | s :: rest, _, hc => (carriesOut_stmt hp (s ()) hc).bind (carriesOut_stmts hp rest hc)

end

section Steady

variable (hp : pass.Steady)
include hp

theorem carriesOut_item (hc : c.cursor.stack ≠ []) (i : Item Expr (Unit → Stmt)) :
    pass.CarriesOut c (pass.item i) (i.agenda c.table c.scope) := by
  match i with
  | .variable decl => exact carriesOut_initializers hp decl 0 decl.init
  | .procedure name body location =>
    refine carriesOut_inOwner hc .procedure name location fun inner => ?_
    exact carriesOut_stmts hp body (c.enter_stack_ne_nil inner)
  | .task name priority body location =>
    refine carriesOut_inOwner hc .task name location fun inner => ?_
    exact (carriesOut_optional hp priority).bind
      (carriesOut_stmts hp body (c.enter_stack_ne_nil inner))

theorem carriesOut_items (hc : c.cursor.stack ≠ []) (is : List (Item Expr (Unit → Stmt))) :
    pass.CarriesOut c (pass.items is) (is.flatMap (Item.agenda c.table c.scope)) := by
  induction is with
  | nil => exact doesInTurn_pure
  | cons i is ih => exact (carriesOut_item hp hc i).bind ih

theorem carriesOut_module (hc : c.cursor.stack ≠ []) (m : Module Expr (Unit → Stmt)) :
    pass.CarriesOut c (pass.module m) (m.agenda c.table c.scope) := by
  refine carriesOut_inOwner hc .module m.name m.location fun inner => ?_
  exact carriesOut_items hp (c.enter_stack_ne_nil inner) m.items

theorem carriesOut_program (hc : c.cursor.stack ≠ []) (p : Program) :
    pass.CarriesOut c (pass.program p) (p.flatMap (Module.agenda c.table c.scope)) := by
  induction p with
  | nil => exact doesInTurn_pure
  | cons m rest ih => exact (carriesOut_module hp hc m).bind ih

/-- A run from the root carries out the agenda of the program. -/
theorem run_eq_inTurn (table : SymbolTable) (s : σ) (p : Program) :
    pass.run table s p =
      (inTurn (pass.perform (.new table)) (p.agenda table) s).1.map
        fun _ => (inTurn (pass.perform (.new table)) (p.agenda table) s).2 := by
  have h := carriesOut_program hp (c := .new table) (List.cons_ne_nil _ _) p s
  unfold run
  rw [h]
  rfl

end Steady

end Pass

end Pearl
