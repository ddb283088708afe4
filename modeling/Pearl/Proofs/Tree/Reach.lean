import Mathlib.Data.List.Perm.Basic
import Pearl.Proofs.Program.Occurrence
import Pearl.Proofs.Tree.WellFormed

/-! # Expressions that a traversal gets to

An expression of a well-formed tree that the references lead to is part of an expression of the
program, and has there the form that it has in the tree. The way down the references is the way down
the parts.
-/

namespace Pearl

open Relation

/-! ## Parts of an expression -/

namespace Expr

def operands : Expr → List Expr
  | .monadic _ _ x | .paren _ x | .cont _ x => [x ()]
  | .dyadic _ _ x y | .slice _ _ x y => [x (), y ()]
  | .dangling _ | .literal .. | .name .. | .attempt .. | .now _ | .sizeOf .. | .taskOf .. => []

/-- The second expression is the first or stands somewhere in it. -/
def Part : Expr → Expr → Prop := ReflTransGen fun x y => y ∈ x.operands

/-- The form that an expression has in a tree; a dangling expression has none. -/
def form? : Expr → Option ExprForm
  | .dangling _ => none
  | .literal _ value => some (.literal value)
  | .name _ ident => some (.name ident)
  | .monadic _ op x => some (.monadic op (x ()).id)
  | .dyadic _ op x y => some (.dyadic op (x ()).id (y ()).id)
  | .paren _ x => some (.paren (x ()).id)
  | .attempt _ semaphores => some (.attempt semaphores)
  | .now _ => some .now
  | .sizeOf _ ident => some (.sizeOf ident)
  | .taskOf _ ident => some (.taskOf ident)
  | .cont _ x => some (.cont (x ()).id)
  | .slice _ kind x y => some (.slice kind (x ()).id (y ()).id)

variable {x y : Expr}

theorem Whole.operand (hx : x.Whole) (h : y ∈ x.operands) : y.Whole := by
  cases x with
  | dangling | literal | name | attempt | now | sizeOf | taskOf => cases h
  | monadic | paren | cont =>
    rw [List.mem_singleton.mp h]
    exact hx
  | dyadic | slice =>
    rcases List.mem_pair.mp h with rfl | rfl
    · exact hx.1
    · exact hx.2

theorem Whole.part (hx : x.Whole) (h : x.Part y) : y.Whole := by
  induction h with
  | refl => exact hx
  | tail _ hz ih => exact ih.operand hz

/-! ## Listing the parts -/

/-- What holds of an expression whenever it holds of the operands holds of all expressions. -/
theorem operands_induction {motive : Expr → Prop}
    (step : ∀ x, (∀ y ∈ x.operands, motive y) → motive x) (x : Expr) : motive x := by
  induction x with
  | dangling | literal | name | attempt | now | sizeOf | taskOf =>
    apply step
    intro y hy
    cases hy
  | monadic _ _ x ih | paren _ x ih | cont _ x ih =>
    apply step
    intro y hy
    rw [List.mem_singleton.mp hy]
    exact ih ()
  | dyadic _ _ x z ihx ihz | slice _ _ x z ihx ihz =>
    apply step
    intro y hy
    rcases List.mem_pair.mp hy with rfl | rfl
    · exact ihx ()
    · exact ihz ()

/-- A list that has something of the expression itself, and what it has of the operands, has that of
all parts. -/
theorem mem_iff_part {α : Type} {list : Expr → List α} {own : Expr → α}
    (h : ∀ x a, a ∈ list x ↔ a = own x ∨ ∃ y ∈ x.operands, a ∈ list y) {x : Expr} {a : α} :
    a ∈ list x ↔ ∃ y, x.Part y ∧ own y = a := by
  constructor
  · induction x using operands_induction with
    | step x ih =>
      intro ha
      rcases (h x a).mp ha with rfl | ⟨y, hy, ha⟩
      · exact ⟨x, .refl, rfl⟩
      · obtain ⟨z, hz, hown⟩ := ih y hy ha
        exact ⟨z, .head hy hz, hown⟩
  · rintro ⟨y, hy, rfl⟩
    induction hy using ReflTransGen.head_induction_on with
    | refl => exact (h y _).mpr (.inl rfl)
    | @head z w hw _ ih => exact (h z _).mpr (.inr ⟨w, hw, ih⟩)

theorem ids_eq (x : Expr) : x.ids = x.id :: x.operands.flatMap ids := by
  cases x <;> simp [ids, id, operands]

/-- The ids met in an expression are those of its parts. -/
theorem mem_ids_iff {x : Expr} {i : ExprId} : i ∈ x.ids ↔ ∃ y, x.Part y ∧ y.id = i := by
  apply mem_iff_part
  intro x i
  rw [ids_eq, List.mem_cons, List.mem_flatMap]

/-- The parts of an expression in the order in which they are completed, operands first. -/
def postorder (x : Expr) : List Expr :=
  match x with
  | .dangling _ | .literal .. | .name .. | .attempt .. | .now _ | .sizeOf .. | .taskOf .. => [x]
  | .monadic _ _ y | .paren _ y | .cont _ y => (y ()).postorder ++ [x]
  | .dyadic _ _ y z | .slice _ _ y z => (y ()).postorder ++ (z ()).postorder ++ [x]

theorem postorder_eq (x : Expr) : x.postorder = x.operands.flatMap postorder ++ [x] := by
  cases x <;> simp [postorder, operands]

theorem postorder_perm_ids (x : Expr) : (x.postorder.map id).Perm x.ids := by
  induction x using operands_induction with
  | step x ih =>
    rw [postorder_eq, ids_eq, List.map_append, List.map_flatMap]
    exact (List.perm_append_singleton ..).trans ((List.Perm.flatMap_left _ ih).cons _)

theorem mem_postorder_iff {x y : Expr} : y ∈ x.postorder ↔ x.Part y := by
  have hlist : ∀ x y : Expr, y ∈ x.postorder ↔ y = x ∨ ∃ z ∈ x.operands, y ∈ z.postorder := by
    intro x y
    rw [postorder_eq, List.mem_append, List.mem_flatMap, List.mem_singleton, or_comm]
  rw [mem_iff_part hlist]
  exact ⟨fun ⟨z, hz, hzy⟩ => hzy ▸ hz, fun h => ⟨y, h, rfl⟩⟩

end Expr

/-! ## Unfolding -/

namespace Tree

variable {t : Tree}

@[simp] theorem id_unfoldExpr (n : Nat) (x : ExprId) : (t.unfoldExpr n x).id = x := by
  cases n with
  | zero => rfl
  | succ n =>
    unfold unfoldExpr
    cases t.expr? x with
    | none => rfl
    | some node =>
      dsimp only
      cases node.form <;> rfl

@[simp] theorem id_expr (x : ExprId) : (t.expr x).id = x := id_unfoldExpr ..

section Node

variable {x : ExprId} {node : ExprNode} (h : t.expr? x = some node) (n : Nat)
include h

theorem operands_unfoldExpr :
    (t.unfoldExpr (n + 1) x).operands = node.form.children.map (t.unfoldExpr n) := by
  unfold unfoldExpr
  rw [h]
  dsimp only
  cases node.form <;> rfl

theorem form?_unfoldExpr : (t.unfoldExpr (n + 1) x).form? = some node.form := by
  unfold unfoldExpr
  rw [h]
  dsimp only
  cases node.form <;> simp only [Expr.form?, id_unfoldExpr]

theorem site?_unfoldExpr : (t.unfoldExpr (n + 1) x).site? = some ⟨x, node.location, node.text⟩ := by
  unfold unfoldExpr
  rw [h]
  dsimp only
  cases node.form <;> rfl

end Node

/-- A whole expression was followed at least one level deep. -/
theorem exists_eq_succ_of_whole {n : Nat} {x : ExprId} (h : (t.unfoldExpr n x).Whole) :
    ∃ m, n = m + 1 := by
  cases n with
  | zero => exact h.elim
  | succ m => exact ⟨m, rfl⟩

/-- What the references lead to is part of what they lead from. -/
theorem exists_part {n : Nat} {r x : ExprId} (hr : (t.unfoldExpr n r).Whole)
    (h : ReflTransGen t.Operand r x) : ∃ m, (t.unfoldExpr n r).Part (t.unfoldExpr (m + 1) x) := by
  induction h with
  | refl =>
    obtain ⟨m, rfl⟩ := exists_eq_succ_of_whole hr
    exact ⟨m, .refl⟩
  | @tail y z _ hyz ih =>
    obtain ⟨m, hm⟩ := ih
    obtain ⟨node, hnode, hz⟩ := hyz
    have hmem : t.unfoldExpr m z ∈ (t.unfoldExpr (m + 1) y).operands := by
      rw [operands_unfoldExpr hnode]
      exact List.mem_map_of_mem hz
    obtain ⟨k, rfl⟩ := exists_eq_succ_of_whole ((hr.part hm).operand hmem)
    exact ⟨k, hm.tail hmem⟩

end Tree

/-! ## Expressions of the program -/

theorem Stmt.mem_exprsAll {x : Expr} {body : List (Unit → Stmt)} :
    x ∈ Stmt.exprsAll body ↔ ∃ s ∈ body, x ∈ (s ()).exprs := by
  induction body with
  | nil => simp [Stmt.exprsAll]
  | cons s rest ih => simp [Stmt.exprsAll, ih]

theorem Stmt.exprs_subset_exprsAll (f : StmtId → Stmt) {s : StmtId} {body : List StmtId}
    (h : s ∈ body) : (f s).exprs ⊆ Stmt.exprsAll (body.map fun id _ => f id) := by
  intro x hx
  exact mem_exprsAll.mpr ⟨_, List.mem_map_of_mem h, hx⟩

namespace Tree

variable {t : Tree} {s : StmtId} {node : StmtNode}

section Node

variable (h : t.stmt? s = some node) (n : Nat)
include h

theorem expr_mem_unfoldStmt {x : ExprId} (hx : x ∈ node.form.exprs) :
    t.expr x ∈ (t.unfoldStmt (n + 1) s).exprs := by
  unfold unfoldStmt
  rw [h]
  dsimp only
  generalize node.form = form at hx
  cases form with
  | declare decl => exact List.mem_map_of_mem hx
  | assign target value | eval value =>
    rw [List.mem_singleton.mp hx]
    exact List.mem_singleton_self _
  | block body => cases hx
  | loop l =>
    obtain ⟨k, hk⟩ := StmtForm.mem_exprs_loop_iff.mp hx
    refine List.mem_append_left _ ?_
    rw [List.map_map]
    exact List.mem_map_of_mem hk
  | branch condition thenBody elseBody =>
    rw [List.mem_singleton.mp hx]
    exact List.mem_cons_self ..
  | ret value =>
    cases value with
    | none => cases hx
    | some value =>
      rw [List.mem_singleton.mp hx]
      exact List.mem_singleton_self _

theorem exprs_subset_unfoldStmt {r : StmtId} (hr : r ∈ node.form.stmts) :
    (t.unfoldStmt n r).exprs ⊆ (t.unfoldStmt (n + 1) s).exprs := by
  have hbody : ∀ body : List StmtId, r ∈ body →
      (t.unfoldStmt n r).exprs ⊆ Stmt.exprsAll (body.map fun id _ => t.unfoldStmt n id) :=
    fun _ hmem => Stmt.exprs_subset_exprsAll (t.unfoldStmt n) hmem
  conv => rhs; unfold unfoldStmt
  rw [h]
  dsimp only
  generalize node.form = form at hr
  cases form with
  | declare | assign | ret | eval => cases hr
  | block body => exact hbody body hr
  | loop l => exact List.subset_append_of_subset_right _ (hbody l.body hr)
  | branch condition thenBody elseBody =>
    refine List.subset_cons_of_subset _ ?_
    rcases List.mem_append.mp hr with hr | hr
    · exact List.subset_append_of_subset_left _ (hbody thenBody hr)
    · exact List.subset_append_of_subset_right _ (hbody elseBody hr)

end Node

namespace WellFormed

variable (h : t.WellFormed)
include h

/-- The expressions that a statement holds, at any depth, are expressions of the statement. -/
theorem expr_mem_stmt (hs : t.ReachesStmt s) {r : StmtId} (hsr : ReflTransGen t.Inside s r)
    (hnode : t.stmt? r = some node) {x : ExprId} (hx : x ∈ node.form.exprs) :
    t.expr x ∈ (t.stmt s).exprs := by
  refine h.stmt_induction
    (motive := fun n s => ReflTransGen t.Inside s r → t.expr x ∈ (t.unfoldStmt n s).exprs)
    ?_ t.size_le_stmtLevels hs hsr
  intro n s top hs htop ih hsr
  rcases hsr.cases_head with rfl | ⟨q, ⟨top', htop', hq⟩, hqr⟩
  · exact expr_mem_unfoldStmt hnode n hx
  · cases htop.symm.trans htop'
    exact exprs_subset_unfoldStmt htop n hq (ih q hq hqr)

theorem expr_mem_program {x : ExprId} (hx : t.HoldsExpr x) : t.expr x ∈ t.program.exprs := by
  have hitem : ∀ i ∈ t.items, (t.item i).exprs ⊆ t.program.exprs := by
    intro i hi y hy
    obtain ⟨m, hm, hi⟩ := List.mem_flatMap.mp hi
    refine List.mem_flatMap.mpr ⟨_, List.mem_map_of_mem hm, ?_⟩
    exact List.mem_flatMap.mpr ⟨_, List.mem_map_of_mem hi, hy⟩
  rcases hx with ⟨i, hi, hx⟩ | ⟨r, node, ⟨i, hi, s, hs, hsr⟩, hnode, hx⟩
  · refine hitem i hi ?_
    match i with
    | .variable decl => exact List.mem_map_of_mem hx
    | .procedure name body location => cases hx
    | .task name priority body location =>
      refine List.mem_append_left _ ?_
      exact Option.mem_toList.mpr (Option.mem_map_of_mem _ (Option.mem_toList.mp hx))
  · have hbody : (t.stmt s).exprs ⊆ Stmt.exprsAll (t.body i.body) :=
      Stmt.exprs_subset_exprsAll t.stmt hs
    refine hitem i hi ?_
    have hmem := hbody (h.expr_mem_stmt ⟨i, hi, s, hs, .refl⟩ hsr hnode hx)
    match i with
    | .variable decl => cases hs
    | .procedure name body location => exact hmem
    | .task name priority body location => exact List.mem_append_right _ hmem

/-- Every expression that can be reached is part of an expression of the program. -/
theorem exists_part_of_reaches {x : ExprId} (hx : t.ReachesExpr x) :
    ∃ top ∈ t.program.exprs, ∃ n, top.Part (t.unfoldExpr (n + 1) x) := by
  obtain ⟨r, hr, hrx⟩ := hx
  exact ⟨t.expr r, h.expr_mem_program hr, exists_part (h.whole_expr hr) hrx⟩

end WellFormed

end Tree

end Pearl
