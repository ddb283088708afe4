import Pearl.Proofs.Tree.Reach

/-! # Where the expressions of a program come from

Each expression that a traversal of a tree meets belongs to an id that the references lead to.
Together with the converse in `Reach` the ids met in a well-formed tree are the ids that can be
reached, and an expression that is met somewhere is the one of its id, whatever the levels that were
left when it was followed.
-/

namespace Pearl

open Relation

/-! ## Parts -/

namespace Tree

variable {t : Tree}

/-- The operands of an expression belong to the operands of its id. -/
theorem exists_operand {n : Nat} {x : ExprId} {y : Expr} (hy : y ∈ (t.unfoldExpr n x).operands) :
    ∃ m z, y = t.unfoldExpr m z ∧ t.Operand x z := by
  cases n with
  | zero => cases hy
  | succ n =>
    cases hnode : t.expr? x with
    | none =>
      unfold unfoldExpr at hy
      rw [hnode] at hy
      cases hy
    | some node =>
      rw [operands_unfoldExpr hnode] at hy
      obtain ⟨z, hz, rfl⟩ := List.mem_map.mp hy
      exact ⟨n, z, rfl, node, hnode, hz⟩

theorem exists_reach_of_part {n : Nat} {r : ExprId} {y : Expr} (h : (t.unfoldExpr n r).Part y) :
    ∃ m x, y = t.unfoldExpr m x ∧ ReflTransGen t.Operand r x := by
  induction h with
  | refl => exact ⟨n, r, rfl, .refl⟩
  | tail _ hz ih =>
    obtain ⟨m, x, rfl, hx⟩ := ih
    obtain ⟨k, z, rfl, hxz⟩ := exists_operand hz
    exact ⟨k, z, rfl, hx.tail hxz⟩

/-- Where nothing dangles, more levels make no difference. -/
theorem unfoldExpr_of_le {m n : Nat} {x : ExprId} (h : (t.unfoldExpr m x).Whole) (hmn : m ≤ n) :
    t.unfoldExpr n x = t.unfoldExpr m x := by
  induction m generalizing n x with
  | zero => exact h.elim
  | succ m ih =>
    obtain ⟨n, rfl⟩ : ∃ k, n = k + 1 := ⟨n - 1, by omega⟩
    cases hnode : t.expr? x with
    | none =>
      unfold unfoldExpr
      rw [hnode]
    | some node =>
      have hbelow : ∀ y ∈ node.form.children, t.unfoldExpr n y = t.unfoldExpr m y := by
        intro y hy
        refine ih (h.operand ?_) (by omega)
        rw [operands_unfoldExpr hnode]
        exact List.mem_map_of_mem hy
      unfold unfoldExpr
      rw [hnode]
      dsimp only
      generalize node.form = form at hbelow
      cases form <;> simp_all [ExprForm.children]

theorem SoundAt.mem_ids {x y : ExprId} (h : t.SoundAt x) :
    y ∈ (t.expr x).ids ↔ ReflTransGen t.Operand x y := by
  rw [Expr.mem_ids_iff]
  constructor
  · rintro ⟨z, hz, rfl⟩
    obtain ⟨m, z, rfl, hxz⟩ := exists_reach_of_part hz
    rw [id_unfoldExpr]
    exact hxz
  · intro hxy
    obtain ⟨m, hm⟩ := exists_part h.whole hxy
    exact ⟨_, hm, id_unfoldExpr ..⟩

theorem SoundAt.below {x y : ExprId} (h : t.SoundAt x) (hxy : ReflTransGen t.Operand x y) :
    t.SoundAt y :=
  ⟨fun z hz => h.expr_exists z (hxy.trans hz), fun z hz => h.expr_acyclic z (hxy.trans hz)⟩

/-- A part of an expression is the expression of an id that it leads to. -/
theorem SoundAt.exists_expr_of_part {x : ExprId} {y : Expr} (h : t.SoundAt x)
    (hy : (t.expr x).Part y) : ∃ z, y = t.expr z ∧ ReflTransGen t.Operand x z := by
  obtain ⟨m, z, rfl, hxz⟩ := exists_reach_of_part hy
  refine ⟨z, ?_, hxz⟩
  rcases Nat.le_total m t.exprs.size with hle | hle
  · exact (unfoldExpr_of_le (h.whole.part hy) hle).symm
  · exact unfoldExpr_of_le (h.below hxz).whole hle

/-- The expression of an id that an expression leads to is part of it. -/
theorem SoundAt.part_expr {x y : ExprId} (h : t.SoundAt x) (hxy : ReflTransGen t.Operand x y) :
    (t.expr x).Part (t.expr y) := by
  obtain ⟨m, hm⟩ := exists_part h.whole hxy
  obtain ⟨z, hz, -⟩ := h.exists_expr_of_part hm
  have hyz : y = z := by simpa using congrArg Expr.id hz
  rw [hyz, ← hz]
  exact hm

/-- The expression of an id has the form and the site of the node, and for operands the expressions
of the operands. -/
theorem SoundAt.exists_node {x : ExprId} (h : t.SoundAt x) :
    ∃ node, t.expr? x = some node ∧ (t.expr x).form? = some node.form ∧
      (t.expr x).site? = some ⟨x, node.location, node.text⟩ ∧
      (t.expr x).operands = node.form.children.map t.expr := by
  obtain ⟨node, hnode⟩ := Option.isSome_iff_exists.mp (h.expr_exists x .refl)
  have hwhole := h.whole
  unfold expr at hwhole ⊢
  obtain ⟨m, hm⟩ := exists_eq_succ_of_whole hwhole
  rw [hm] at hwhole ⊢
  refine ⟨node, hnode, form?_unfoldExpr hnode m, site?_unfoldExpr hnode m, ?_⟩
  rw [operands_unfoldExpr hnode]
  apply List.map_congr_left
  intro y hy
  refine (unfoldExpr_of_le (hwhole.operand ?_) (Nat.le_succ m)).symm
  rw [operands_unfoldExpr hnode]
  exact List.mem_map_of_mem hy

end Tree

/-! ## Expressions of the program -/

namespace Tree

variable {t : Tree}

/-- The expressions of a statement are those that it holds, or a statement inside. -/
theorem exists_of_mem_unfoldStmt {n : Nat} {s : StmtId} {y : Expr}
    (hy : y ∈ (t.unfoldStmt n s).exprs) :
    ∃ r node x, ReflTransGen t.Inside s r ∧ t.stmt? r = some node ∧ x ∈ node.form.exprs ∧
      y = t.expr x := by
  induction n generalizing s with
  | zero => cases hy
  | succ n ih =>
    unfold unfoldStmt at hy
    cases hnode : t.stmt? s with
    | none =>
      rw [hnode] at hy
      cases hy
    | some node =>
      have hheld : ∀ x ∈ node.form.exprs, y = t.expr x → ∃ r node x, ReflTransGen t.Inside s r ∧
          t.stmt? r = some node ∧ x ∈ node.form.exprs ∧ y = t.expr x :=
        fun x hx hyx => ⟨s, node, x, .refl, hnode, hx, hyx⟩
      have hbody : ∀ body : List StmtId, body ⊆ node.form.stmts →
          y ∈ Stmt.exprsAll (body.map fun id _ => t.unfoldStmt n id) →
          ∃ r node x, ReflTransGen t.Inside s r ∧ t.stmt? r = some node ∧ x ∈ node.form.exprs ∧
            y = t.expr x := by
        intro body hsub hmem
        obtain ⟨q', hq', hyq⟩ := Stmt.mem_exprsAll.mp hmem
        obtain ⟨q, hq, rfl⟩ := List.mem_map.mp hq'
        obtain ⟨r, node', x, hqr, hrest⟩ := ih hyq
        exact ⟨r, node', x, .head ⟨node, hnode, hsub hq⟩ hqr, hrest⟩
      rw [hnode] at hy
      dsimp only at hy
      generalize node.form = form at hheld hbody hy
      cases form with
      | declare decl =>
        obtain ⟨x, hx, rfl⟩ := List.mem_map.mp hy
        exact hheld x hx rfl
      | assign target value | eval value =>
        exact hheld value (List.mem_singleton_self _) (List.mem_singleton.mp hy)
      | block body => exact hbody body (List.Subset.refl _) hy
      | loop l =>
        rcases List.mem_append.mp hy with hy | hy
        · rw [List.map_map] at hy
          obtain ⟨c, hc, rfl⟩ := List.mem_map.mp hy
          exact hheld c.2 (StmtForm.mem_exprs_loop_iff.mpr ⟨c.1, hc⟩) rfl
        · exact hbody l.body (List.Subset.refl _) hy
      | branch condition thenBody elseBody =>
        rcases List.mem_cons.mp hy with rfl | hy
        · exact hheld condition (List.mem_singleton_self _) rfl
        · rcases List.mem_append.mp hy with hy | hy
          · exact hbody thenBody (List.subset_append_left ..) hy
          · exact hbody elseBody (List.subset_append_right ..) hy
      | ret value =>
        obtain ⟨x, hx, rfl⟩ := Option.map_eq_some_iff.mp (Option.mem_toList.mp hy)
        exact hheld x (Option.mem_toList.mpr hx) rfl

/-- The expressions of a body that an item has. -/
theorem exists_holds_of_mem_body {i : Item ExprId StmtId} (hi : i ∈ t.items) {y : Expr}
    (hy : y ∈ Stmt.exprsAll (t.body i.body)) : ∃ x, t.HoldsExpr x ∧ y = t.expr x := by
  obtain ⟨s', hs', hys⟩ := Stmt.mem_exprsAll.mp hy
  obtain ⟨s, hs, rfl⟩ := List.mem_map.mp hs'
  obtain ⟨r, node, x, hsr, hnode, hx, rfl⟩ := exists_of_mem_unfoldStmt hys
  exact ⟨x, .inr ⟨r, node, ⟨i, hi, s, hs, hsr⟩, hnode, hx⟩, rfl⟩

/-- The expressions of the program are those that an item or a statement holds. -/
theorem exists_holds_of_mem_program {y : Expr} (hy : y ∈ t.program.exprs) :
    ∃ x, t.HoldsExpr x ∧ y = t.expr x := by
  obtain ⟨m', hm', hy⟩ := List.mem_flatMap.mp hy
  obtain ⟨m, hm, rfl⟩ := List.mem_map.mp hm'
  obtain ⟨i', hi', hy⟩ := List.mem_flatMap.mp hy
  obtain ⟨i, hi, rfl⟩ := List.mem_map.mp hi'
  have hitem : i ∈ t.items := List.mem_flatMap.mpr ⟨m, hm, hi⟩
  match i with
  | .variable decl =>
    obtain ⟨x, hx, rfl⟩ := List.mem_map.mp hy
    exact ⟨x, .inl ⟨_, hitem, hx⟩, rfl⟩
  | .procedure name body location => exact exists_holds_of_mem_body hitem hy
  | .task name priority body location =>
    rcases List.mem_append.mp hy with hy | hy
    · obtain ⟨x, hx, rfl⟩ := Option.map_eq_some_iff.mp (Option.mem_toList.mp hy)
      exact ⟨x, .inl ⟨_, hitem, Option.mem_toList.mpr hx⟩, rfl⟩
    · exact exists_holds_of_mem_body hitem hy

/-- The ids that a traversal meets are those it can get to. -/
theorem WellFormed.mem_exprIds (h : t.WellFormed) {x : ExprId} :
    x ∈ t.program.exprIds ↔ t.ReachesExpr x := by
  unfold Program.exprIds
  rw [List.mem_flatMap]
  constructor
  · rintro ⟨top, htop, hx⟩
    obtain ⟨r, hr, rfl⟩ := exists_holds_of_mem_program htop
    exact ⟨r, hr, (h.soundAt hr.reaches).mem_ids.mp hx⟩
  · rintro ⟨r, hr, hrx⟩
    exact ⟨t.expr r, h.expr_mem_program hr, (h.soundAt hr.reaches).mem_ids.mpr hrx⟩

end Tree

end Pearl
