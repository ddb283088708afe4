import Pearl.Proofs.Constant.Fold
import Pearl.Proofs.Typing.Entries

/-! # A visit leaves the context as it was

Whatever part of a program a pass visits, the scopes entered, the overrides of precisions and the
table are afterwards what they were before, for a visit that succeeds and for one that fails. A
scope is left by taking the last one off the stack, which is the right one only because all that was
visited inside it had left its own.
-/

namespace Pearl

open Walk

/-- What a traversal visits as a whole. -/
inductive Portion where
  | program (p : Program)
  | module (m : Module Expr (Unit → Stmt))
  /-- what stands inside the scope of a module -/
  | items (is : List (Item Expr (Unit → Stmt)))
  | item (i : Item Expr (Unit → Stmt))
  | declaration (decl : Declaration Expr)
  /-- what stands inside the scope of a task -/
  | task (priority : Option Expr) (body : List (Unit → Stmt))
  /-- what stands inside the scope of a procedure or block, or in a branch -/
  | body (body : List (Unit → Stmt))
  | stmt (s : Stmt)
  /-- what stands inside the scope of a loop -/
  | loop (clauses : List (Clause × Expr)) (body : List (Unit → Stmt))
  | clause (clause : Clause) (x : Expr)
  | expr (x : Expr)

def Pass.portion {σ : Type} (pass : Pass σ) : Portion → Walk σ Unit
  | .program p => pass.program p
  | .module m => pass.module m
  | .items is => pass.items is
  | .item i => pass.item i
  | .declaration decl => pass.declaration decl
  | .task priority body => do
    pass.optional priority
    pass.stmts body
  | .body body => pass.stmts body
  | .stmt s => pass.stmt s
  | .loop clauses body => do
    pass.clauses clauses
    pass.stmts body
  | .clause clause x => pass.clause clause (pass.expr x)
  | .expr x => pass.expr x

namespace Walk

variable {σ α : Type}

/-- From a context, an action leaves the context as it was, whatever its outcome. -/
def Restores (act : Walk σ α) (c : Context) : Prop := ∀ s, (act.runFrom ⟨c, s⟩).2.context = c

/-- An action that is run inside a scope has left it in the end: who leaves the scope after it
stands where the scope was entered. -/
def LeadsBack (act : Walk σ α) (c : Context) : Prop :=
  ∀ scope s, (act.runFrom ⟨c.enter scope, s⟩).2.context.leave.scope = c.scope

theorem DoesInTurn.restores {β : Type} {perform : β → σ → Except Halt Unit × σ} {c : Context}
    {act : Walk σ Unit} {bs : List β} (h : DoesInTurn perform c act bs) : act.Restores c := by
  intro s
  rw [h s]

theorem Restores.leadsBack {act : Walk σ α} {c : Context} (hc : c.cursor.stack ≠ [])
    (h : ∀ scope, act.Restores (c.enter scope)) : act.LeadsBack c := by
  intro scope s
  rw [h scope s, c.leave_enter scope hc]

end Walk

namespace Pass

variable {σ : Type} {pass : Pass σ} {c : Context}

/-- A steady pass leaves the context as it was after every visit. -/
theorem restores_portion (hp : pass.Steady) (hc : c.cursor.stack ≠ []) (v : Portion) :
    (pass.portion v).Restores c := by
  cases v with
  | program p => exact (carriesOut_program hp hc p).restores
  | module m => exact (carriesOut_module hp hc m).restores
  | items is => exact (carriesOut_items hp hc is).restores
  | item i => exact (carriesOut_item hp hc i).restores
  | declaration decl => exact (carriesOut_initializers hp decl 0 decl.init).restores
  | task priority body =>
    exact ((carriesOut_optional hp priority).bind (carriesOut_stmts hp body hc)).restores
  | body body => exact (carriesOut_stmts hp body hc).restores
  | stmt s => exact (carriesOut_stmt hp s hc).restores
  | loop clauses body =>
    exact ((carriesOut_clauses hp clauses).bind (carriesOut_stmts hp body hc)).restores
  | clause clause x => exact (carriesOut_visit hp x (.clause clause)).restores
  | expr x => exact (carriesOut_visit hp x .plain).restores

theorem leadsBack_portion (hp : pass.Steady) (hc : c.cursor.stack ≠ []) (v : Portion) :
    (pass.portion v).LeadsBack c :=
  Restores.leadsBack hc fun scope => restores_portion hp (c.enter_stack_ne_nil scope) v

end Pass

open Pool TypingTable

/-- Both passes leave the context as it was after every visit, from any context that stands in a
scope, and have left every scope that they entered in between. -/
theorem portion_restores_and_leads_back (v : Portion) (c : Context) (hc : c.cursor.stack ≠ []) :
    (collecting.portion v).Restores c ∧ (inferring.portion v).Restores c ∧
      (collecting.portion v).LeadsBack c ∧ (inferring.portion v).LeadsBack c :=
  ⟨Pass.restores_portion steady_collecting hc v, Pass.restores_portion steady_inferring hc v,
    Pass.leadsBack_portion steady_collecting hc v, Pass.leadsBack_portion steady_inferring hc v⟩

/-- In a task of the sample unit, typing a block fails at an unknown name inside its scope, and is
back in the scope of the task then. -/
theorem portion_restores_and_leads_back_block :
    let block : Stmt := .block ⟨⟨2⟩, .unknown⟩
      [fun _ => .eval ⟨⟨0⟩, .unknown⟩ (.name ⟨⟨0⟩, .unknown, "y"⟩ "y")]
    let task : Context := ((Context.new Sample.table).enter ⟨1⟩).enter ⟨2⟩
    task.cursor.stack ≠ [] ∧
      ((inferring.portion (.stmt block)).runFrom ⟨task, .empty⟩).1 =
        .error (.reported ⟨.unknownIdentifier, .unknown, "y"⟩) ∧
      ((inferring.portion (.stmt block)).runFrom ⟨task, .empty⟩).2.context = task := by
  intro block task
  have htask : task.cursor.stack ≠ [] := List.cons_ne_nil _ _
  exact ⟨htask, rfl, (portion_restores_and_leads_back (.stmt block) task htask).2.1 .empty⟩

end Pearl
