import Mathlib.Data.List.Perm.Basic
import Pearl.Proofs.Alike
import Pearl.Proofs.Walk.Agenda

/-! # Trees with their parts in another order

The items of a module and the statements of a body may stand in any order. A traversal of the
rearranged tree has the same errands, in another order: where an errand stands and what it is about
does not depend on what comes before it.
-/

namespace Pearl

/-! ## Rearranging -/

/-- The body of an item in another order. -/
inductive Item.Rearranged : Item ExprId StmtId → Item ExprId StmtId → Prop
  | variable (decl : Declaration ExprId) : Rearranged (.variable decl) (.variable decl)
  | procedure (name : String) {body body' : List StmtId} (location : Location)
    (h : body.Perm body') :
    Rearranged (.procedure name body location) (.procedure name body' location)
  | task (name : String) (priority : Option ExprId) {body body' : List StmtId} (location : Location)
    (h : body.Perm body') :
    Rearranged (.task name priority body location) (.task name priority body' location)

/-- The items of a module in another order, each with its own body in another order. -/
structure Module.Rearranged (m m' : Module ExprId StmtId) : Prop where
  name : m.name = m'.name
  location : m.location = m'.location
  items : ∃ items, List.Forall₂ Item.Rearranged m.items items ∧ items.Perm m'.items

/-- The bodies of a block, loop or branch in another order. -/
inductive StmtForm.Rearranged : StmtForm → StmtForm → Prop
  | declare (decl : Declaration ExprId) : Rearranged (.declare decl) (.declare decl)
  | assign (target : String) (value : ExprId) :
    Rearranged (.assign target value) (.assign target value)
  | ret (value : Option ExprId) : Rearranged (.ret value) (.ret value)
  | eval (x : ExprId) : Rearranged (.eval x) (.eval x)
  | block {body body' : List StmtId} (h : body.Perm body') : Rearranged (.block body) (.block body')
  | loop (l : Loop) {body : List StmtId} (h : l.body.Perm body) :
    Rearranged (.loop l) (.loop { l with body })
  | branch (condition : ExprId) {thenBody thenBody' elseBody elseBody' : List StmtId}
    (hthen : thenBody.Perm thenBody') (helse : elseBody.Perm elseBody') :
    Rearranged (.branch condition thenBody elseBody) (.branch condition thenBody' elseBody')

structure StmtNode.Rearranged (s s' : StmtNode) : Prop where
  form : s.form.Rearranged s'.form
  location : s.location = s'.location

/-- The second tree has the nodes of the first under the same ids, with the items of modules and the
statements of bodies in another order. -/
structure Tree.Rearranged (t t' : Tree) : Prop where
  exprs : t.exprs = t'.exprs
  stmts : List.Forall₂ StmtNode.Rearranged t.stmts.toList t'.stmts.toList
  modules : List.Forall₂ Module.Rearranged t.modules t'.modules

/-! ## Errands -/

variable {table : SymbolTable} {scope : ScopeId}

theorem perm_inFound {α : Type} {found : Except Diagnostic α} {agenda agenda' : α → List Errand}
    (h : ∀ a, (agenda a).Perm (agenda' a)) :
    (inFound found agenda).Perm (inFound found agenda') := by
  cases found with
  | error d => exact .nil
  | ok a => exact h a

/-- A body whose statements have the same errands in some order, and stand in another order
themselves. -/
theorem Stmt.perm_agendaAll {stmt stmt' : StmtId → Stmt} {body body' : List StmtId}
    (hstmt : ∀ s, ((stmt s).agenda table scope).Perm ((stmt' s).agenda table scope))
    (hbody : body.Perm body') :
    (agendaAll table scope (body.map fun s _ => stmt s)).Perm
      (agendaAll table scope (body'.map fun s _ => stmt' s)) := by
  rw [agendaAll_eq_flatMap, agendaAll_eq_flatMap, List.flatMap_map, List.flatMap_map]
  exact hbody.flatMap fun s _ => hstmt s

theorem perm_flatMap_of_forall₂ {α β γ : Type} {R : α → β → Prop} {as : List α} {bs : List β}
    {f : α → List γ} {g : β → List γ} (h : List.Forall₂ R as bs)
    (hfg : ∀ a b, R a b → (f a).Perm (g b)) : (as.flatMap f).Perm (bs.flatMap g) := by
  induction h with
  | nil => exact .nil
  | cons hab _ ih =>
    rw [List.flatMap_cons, List.flatMap_cons]
    exact (hfg _ _ hab).append ih

namespace Tree

variable {t t' : Tree}

theorem unfoldExpr_eq_of_exprs (h : t.exprs = t'.exprs) (n : Nat) (x : ExprId) :
    t.unfoldExpr n x = t'.unfoldExpr n x := by
  induction n generalizing x with
  | zero => rfl
  | succ n ih => simp only [unfoldExpr, expr?, h, ih]

namespace Rearranged

variable (h : t.Rearranged t')
include h

theorem expr_eq : t.expr = t'.expr := by
  funext x
  rw [expr, expr, h.exprs]
  exact unfoldExpr_eq_of_exprs h.exprs _ x

theorem declaration_eq : t.declaration = t'.declaration := by
  funext decl
  rw [declaration, declaration, h.expr_eq]

theorem stmt? (s : StmtId) : Option.Rel StmtNode.Rearranged (t.stmt? s) (t'.stmt? s) := by
  unfold Tree.stmt?
  rw [← Array.getElem?_toList, ← Array.getElem?_toList]
  exact rel_getElem? h.stmts s.index

theorem stmtLevels_eq : t.stmtLevels = t'.stmtLevels := by
  have hsize : t.stmts.size = t'.stmts.size := by simpa using h.stmts.length_eq
  rw [stmtLevels, stmtLevels, hsize]

/-- A statement has the same errands at any depth. Statements inside have one level less, and stand
in the scope that the statement opens. -/
theorem perm_agenda_unfoldStmt (n : Nat) (s : StmtId) (scope : ScopeId) :
    ((t.unfoldStmt n s).agenda table scope).Perm ((t'.unfoldStmt n s).agenda table scope) := by
  induction n generalizing s scope with
  | zero => exact .refl _
  | succ n ih =>
    have hnode := h.stmt? s
    unfold unfoldStmt
    rw [h.expr_eq, h.declaration_eq]
    generalize t.stmt? s = node, t'.stmt? s = node' at hnode
    cases hnode with
    | none => exact .refl _
    | @some node node' hnode =>
      obtain ⟨hform, hlocation⟩ := hnode
      dsimp only
      rw [hlocation]
      generalize node.form = form, node'.form = form' at hform
      cases hform with
      | declare | assign | ret | eval => exact .refl _
      | block hbody =>
        exact (perm_inFound fun inner => Stmt.perm_agendaAll (ih · inner) hbody).cons _
      | loop l hbody =>
        exact (perm_inFound fun inner =>
          (Stmt.perm_agendaAll (ih · inner) hbody).append_left _).cons _
      | branch condition hthen helse =>
        exact ((Stmt.perm_agendaAll (ih · scope) hthen).append
          (Stmt.perm_agendaAll (ih · scope) helse)).cons _

theorem perm_agenda_body {body body' : List StmtId} (hbody : body.Perm body') (scope : ScopeId) :
    (Stmt.agendaAll table scope (t.body body)).Perm
      (Stmt.agendaAll table scope (t'.body body')) := by
  refine Stmt.perm_agendaAll (fun s => ?_) hbody
  rw [stmt, stmt, h.stmtLevels_eq]
  exact h.perm_agenda_unfoldStmt _ s scope

theorem perm_agenda_item {i i' : Item ExprId StmtId} (hitem : i.Rearranged i') (scope : ScopeId) :
    ((t.item i).agenda table scope).Perm ((t'.item i').agenda table scope) := by
  cases hitem with
  | «variable» decl =>
    rw [item, item, h.declaration_eq]
  | procedure name location hbody =>
    exact (perm_inFound fun inner => h.perm_agenda_body hbody inner).cons _
  | task name priority location hbody =>
    rw [item, item, h.expr_eq]
    exact (perm_inFound fun inner => (h.perm_agenda_body hbody inner).append_left _).cons _

/-- A traversal of the rearranged tree has the same errands. -/
theorem perm_agenda (table : SymbolTable) :
    (t.program.agenda table).Perm (t'.program.agenda table) := by
  unfold Program.agenda program
  rw [List.flatMap_map, List.flatMap_map]
  refine perm_flatMap_of_forall₂ h.modules fun m m' hm => ?_
  obtain ⟨items, hitems, hperm⟩ := hm.items
  unfold Module.agenda
  dsimp only
  rw [hm.name, hm.location]
  refine (perm_inFound fun inner => ?_).cons _
  rw [List.flatMap_map, List.flatMap_map]
  exact (perm_flatMap_of_forall₂ hitems fun i i' hi => h.perm_agenda_item hi inner).trans
    (hperm.flatMap_right _)

end Rearranged

end Tree

end Pearl
