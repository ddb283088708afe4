import Mathlib.Data.List.Basic
import Mathlib.Data.Option.Basic
import Pearl.Walk.Pass

/-! # Names that a unit uses

The names that a traversal may have to resolve: those that expressions refer to and assignments go
to, and those that declarations, modules, procedures and tasks introduce. The names of a program are
names of its tree.
-/

namespace Pearl

/-! ## In a tree -/

def ExprForm.names : ExprForm → List String
  | .name ident => [ident]
  | _ => []

def StmtForm.names : StmtForm → List String
  | .declare decl => decl.names
  | .assign target _ => [target]
  | _ => []

/-- The names that an item introduces. -/
def Item.names {ε σ : Type} : Item ε σ → List String
  | .variable decl => decl.names
  | .procedure name _ _ | .task name _ _ _ => [name]

def Module.names {ε σ : Type} (m : Module ε σ) : List String := m.name :: m.items.flatMap Item.names

def Tree.names (t : Tree) : List String :=
  t.modules.flatMap Module.names ++ t.stmts.toList.flatMap (·.form.names) ++
    t.exprs.toList.flatMap (·.form.names)

/-! ## In a program -/

def Expr.names : Expr → List String
  | .name _ ident => [ident]
  | .dangling _ | .literal .. | .attempt .. | .now _ | .sizeOf .. | .taskOf .. => []
  | .monadic _ _ x | .paren _ x | .cont _ x => (x ()).names
  | .dyadic _ _ x y | .slice _ _ x y => (x ()).names ++ (y ()).names

def Declaration.allNames (decl : Declaration Expr) : List String :=
  decl.names ++ decl.init.flatMap Expr.names

mutual

/-- The names in a statement and in what stands inside it. -/
def Stmt.names : Stmt → List String
  | .dangling _ => []
  | .declare _ decl => decl.allNames
  | .assign _ target value => target :: value.names
  | .block _ body => Stmt.namesAll body
  | .loop _ _ clauses body => clauses.flatMap (·.2.names) ++ Stmt.namesAll body
  | .branch _ condition thenBody elseBody =>
    condition.names ++ (Stmt.namesAll thenBody ++ Stmt.namesAll elseBody)
  | .ret _ value => value.toList.flatMap Expr.names
  | .eval _ x => x.names

def Stmt.namesAll : List (Unit → Stmt) → List String
  | [] => []
  | s :: rest => Stmt.names (s ()) ++ Stmt.namesAll rest

end

def Item.allNames : Item Expr (Unit → Stmt) → List String
  | .variable decl => decl.allNames
  | .procedure name body _ => name :: Stmt.namesAll body
  | .task name priority body _ => name :: (priority.toList.flatMap Expr.names ++ Stmt.namesAll body)

def Program.names (p : Program) : List String :=
  p.flatMap fun m => m.name :: m.items.flatMap Item.allNames

/-- An initialiser belongs to a name of the declaration. -/
theorem Declaration.mem_names_of_nameOf? {ε : Type} {decl : Declaration ε} {i : Nat} {name : String}
    (h : decl.nameOf? i = some name) : name ∈ decl.names := by
  unfold nameOf? at h
  rcases (Option.orElse_eq_some ..).mp h with h | ⟨-, h⟩
  · exact List.mem_of_getElem? h
  · exact List.mem_of_getLast? h

/-! ## The names of a program are those of its tree -/

theorem flatMap_subset {α β : Type} {f : α → List β} {as : List α} {bs : List β}
    (h : ∀ a ∈ as, f a ⊆ bs) : as.flatMap f ⊆ bs := by
  intro b hb
  obtain ⟨a, ha, hb⟩ := List.mem_flatMap.mp hb
  exact h a ha hb

namespace Tree

variable {t : Tree}

theorem names_form_subset {x : ExprId} {node : ExprNode} (h : t.expr? x = some node) :
    node.form.names ⊆ t.names := by
  intro name hname
  refine List.mem_append_right _ (List.mem_flatMap.mpr ⟨node, ?_, hname⟩)
  exact Array.mem_toList_iff.mpr (Array.mem_of_getElem? h)

theorem names_stmtForm_subset {s : StmtId} {node : StmtNode} (h : t.stmt? s = some node) :
    node.form.names ⊆ t.names := by
  intro name hname
  refine List.mem_append_left _ (List.mem_append_right _ (List.mem_flatMap.mpr ⟨node, ?_, hname⟩))
  exact Array.mem_toList_iff.mpr (Array.mem_of_getElem? h)

theorem names_unfoldExpr_subset (n : Nat) (x : ExprId) : (t.unfoldExpr n x).names ⊆ t.names := by
  induction n generalizing x with
  | zero => exact List.nil_subset _
  | succ n ih =>
    unfold unfoldExpr
    cases hnode : t.expr? x with
    | none => exact List.nil_subset _
    | some node =>
      have hform := names_form_subset hnode
      dsimp only
      generalize node.form = form at hform
      cases form with
      | name ident => exact hform
      | literal | attempt | now | sizeOf | taskOf => exact List.nil_subset _
      | monadic op y | paren y | cont y => exact ih y
      | dyadic op y z | slice kind y z => exact List.append_subset.mpr ⟨ih y, ih z⟩

theorem names_expr_subset (x : ExprId) : (t.expr x).names ⊆ t.names := names_unfoldExpr_subset _ x

theorem flatMap_names_expr_subset (xs : List ExprId) :
    (xs.map t.expr).flatMap Expr.names ⊆ t.names := by
  rw [List.flatMap_map]
  exact flatMap_subset fun x _ => names_expr_subset x

theorem allNames_declaration_subset {decl : Declaration ExprId} (h : decl.names ⊆ t.names) :
    (t.declaration decl).allNames ⊆ t.names :=
  List.append_subset.mpr ⟨h, flatMap_names_expr_subset decl.init⟩

theorem namesAll_subset {f : StmtId → Stmt} (h : ∀ s, (f s).names ⊆ t.names) (body : List StmtId) :
    Stmt.namesAll (body.map fun s _ => f s) ⊆ t.names := by
  induction body with
  | nil => exact List.nil_subset _
  | cons s body ih => exact List.append_subset.mpr ⟨h s, ih⟩

theorem names_unfoldStmt_subset (n : Nat) (s : StmtId) : (t.unfoldStmt n s).names ⊆ t.names := by
  induction n generalizing s with
  | zero => exact List.nil_subset _
  | succ n ih =>
    unfold unfoldStmt
    cases hnode : t.stmt? s with
    | none => exact List.nil_subset _
    | some node =>
      have hform := names_stmtForm_subset hnode
      dsimp only
      generalize node.form = form at hform
      cases form with
      | declare decl => exact allNames_declaration_subset hform
      | assign target value =>
        exact List.cons_subset.mpr ⟨hform (List.mem_singleton_self _), names_expr_subset value⟩
      | block body => exact namesAll_subset ih body
      | loop l =>
        refine List.append_subset.mpr ⟨?_, namesAll_subset ih l.body⟩
        rw [List.flatMap_map]
        exact flatMap_subset fun c _ => names_expr_subset c.2
      | branch condition thenBody elseBody =>
        exact List.append_subset.mpr ⟨names_expr_subset condition,
          List.append_subset.mpr ⟨namesAll_subset ih thenBody, namesAll_subset ih elseBody⟩⟩
      | ret value =>
        cases value with
        | none => exact List.nil_subset _
        | some value => exact flatMap_names_expr_subset [value]
      | eval x => exact names_expr_subset x

theorem allNames_item_subset {i : Item ExprId StmtId} (h : i.names ⊆ t.names) :
    (t.item i).allNames ⊆ t.names := by
  have hbody : ∀ body, Stmt.namesAll (t.body body) ⊆ t.names :=
    namesAll_subset (names_unfoldStmt_subset t.stmtLevels)
  cases i with
  | «variable» decl => exact allNames_declaration_subset h
  | procedure name body location =>
    exact List.cons_subset.mpr ⟨h (List.mem_singleton_self _), hbody body⟩
  | task name priority body location =>
    refine List.cons_subset.mpr ⟨h (List.mem_singleton_self _),
      List.append_subset.mpr ⟨?_, hbody body⟩⟩
    cases priority with
    | none => exact List.nil_subset _
    | some x => exact flatMap_names_expr_subset [x]

theorem names_program_subset (t : Tree) : t.program.names ⊆ t.names := by
  unfold Program.names program
  rw [List.flatMap_map]
  refine flatMap_subset fun m hm => ?_
  have hmodule : m.names ⊆ t.names := by
    intro name hname
    exact List.mem_append_left _ (List.mem_append_left _ (List.mem_flatMap.mpr ⟨m, hm, hname⟩))
  obtain ⟨hname, hitems⟩ := List.cons_subset.mp hmodule
  refine List.cons_subset.mpr ⟨hname, ?_⟩
  rw [List.flatMap_map]
  refine flatMap_subset fun i hi => allNames_item_subset fun name hname => ?_
  exact hitems (List.mem_flatMap.mpr ⟨i, hi, hname⟩)

end Tree

end Pearl
