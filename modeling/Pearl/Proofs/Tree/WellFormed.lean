import Pearl.Proofs.Levels
import Pearl.Proofs.Walk.Agenda

/-! # Well-formed trees

A tree is well formed when each reference that a traversal can follow leads to a node, and no node
leads back to itself. The program of such a tree has no dangling nodes: a way down the tree passes
each node once at most, so that it is no longer than the levels to which the tree is followed.
-/

namespace Pearl

open Relation

/-! ## References -/

namespace Loop

/-- The expression of a clause, if the clause is given. -/
def clause? (l : Loop) : Clause → Option ExprId
  | .first => l.first
  | .step => l.step
  | .last => l.last
  | .condition => l.condition

theorem mem_clauses_iff {l : Loop} {k : Clause} {x : ExprId} :
    (k, x) ∈ l.clauses ↔ l.clause? k = some x := by
  cases k <;> simp [clauses, clause?]

end Loop

namespace StmtForm

/-- The statements directly inside a statement. -/
def stmts : StmtForm → List StmtId
  | .block body => body
  | .loop l => l.body
  | .branch _ thenBody elseBody => thenBody ++ elseBody
  | .declare _ | .assign _ _ | .ret _ | .eval _ => []

/-- The expressions that a statement holds itself. -/
def exprs : StmtForm → List ExprId
  | .declare decl => decl.init
  | .assign _ value => [value]
  | .block _ => []
  | .loop l => l.first.toList ++ l.step.toList ++ l.last.toList ++ l.condition.toList
  | .branch condition _ _ => [condition]
  | .ret value => value.toList
  | .eval x => [x]

/-- A loop holds what its clauses hold. -/
theorem mem_exprs_loop_iff {l : Loop} {x : ExprId} :
    x ∈ (loop l).exprs ↔ ∃ k, (k, x) ∈ l.clauses := by
  simp only [exprs, List.mem_append, Option.mem_toList, Loop.mem_clauses_iff]
  constructor
  · rintro (((h | h) | h) | h)
    · exact ⟨.first, h⟩
    · exact ⟨.step, h⟩
    · exact ⟨.last, h⟩
    · exact ⟨.condition, h⟩
  · rintro ⟨_ | _ | _ | _, h⟩
    · exact .inl (.inl (.inl h))
    · exact .inl (.inl (.inr h))
    · exact .inl (.inr h)
    · exact .inr h

end StmtForm

namespace Item

variable {ε σ : Type}

def body : Item ε σ → List σ
  | .variable _ => []
  | .procedure _ body _ | .task _ _ body _ => body

/-- The expressions that an item holds itself. -/
def outer : Item ε σ → List ε
  | .variable decl => decl.init
  | .procedure .. => []
  | .task _ priority _ _ => priority.toList

end Item

namespace Tree

variable (t : Tree)

/-- The second expression is a direct operand of the first. -/
def Operand (x y : ExprId) : Prop := ∃ node, t.expr? x = some node ∧ y ∈ node.form.children

/-- The second statement stands directly inside the first. -/
def Inside (s r : StmtId) : Prop := ∃ node, t.stmt? s = some node ∧ r ∈ node.form.stmts

def items : List (Item ExprId StmtId) := t.modules.flatMap Module.items

/-- A traversal can get to the statement. -/
def ReachesStmt (s : StmtId) : Prop := ∃ i ∈ t.items, ∃ r ∈ i.body, ReflTransGen t.Inside r s

/-- An item, or a statement that a traversal can get to, holds the expression. -/
def HoldsExpr (x : ExprId) : Prop :=
  (∃ i ∈ t.items, x ∈ i.outer) ∨
    ∃ s node, t.ReachesStmt s ∧ t.stmt? s = some node ∧ x ∈ node.form.exprs

/-- A traversal can get to the expression. -/
def ReachesExpr (x : ExprId) : Prop := ∃ r, t.HoldsExpr r ∧ ReflTransGen t.Operand r x

structure WellFormed : Prop where
  expr_exists : ∀ x, t.ReachesExpr x → (t.expr? x).isSome
  stmt_exists : ∀ s, t.ReachesStmt s → (t.stmt? s).isSome
  expr_acyclic : ∀ x, t.ReachesExpr x → ¬TransGen t.Operand x x
  stmt_acyclic : ∀ s, t.ReachesStmt s → ¬TransGen t.Inside s s

/-- Nothing that the expression leads to is missing or leads back to itself. -/
structure SoundAt (x : ExprId) : Prop where
  expr_exists : ∀ y, ReflTransGen t.Operand x y → (t.expr? y).isSome
  expr_acyclic : ∀ y, ReflTransGen t.Operand x y → ¬TransGen t.Operand y y

variable {t}

@[simp] theorem isSome_expr? {x : ExprId} : (t.expr? x).isSome ↔ x.index < t.exprs.size := by
  simp [expr?]

@[simp] theorem isSome_stmt? {s : StmtId} : (t.stmt? s).isSome ↔ s.index < t.stmts.size := by
  simp [stmt?]

theorem ReachesExpr.operand {x y : ExprId} (hx : t.ReachesExpr x) (h : t.Operand x y) :
    t.ReachesExpr y := by
  obtain ⟨r, hr, hrx⟩ := hx
  exact ⟨r, hr, hrx.tail h⟩

theorem ReachesStmt.inside {s r : StmtId} (hs : t.ReachesStmt s) (h : t.Inside s r) :
    t.ReachesStmt r := by
  obtain ⟨i, hi, top, htop, hts⟩ := hs
  exact ⟨i, hi, top, htop, hts.tail h⟩

theorem HoldsExpr.reaches {x : ExprId} (h : t.HoldsExpr x) : t.ReachesExpr x := ⟨x, h, .refl⟩

theorem WellFormed.soundAt (h : t.WellFormed) {x : ExprId} (hx : t.ReachesExpr x) :
    t.SoundAt x := by
  obtain ⟨r, hr, hrx⟩ := hx
  exact ⟨fun y hy => h.expr_exists y ⟨r, hr, hrx.trans hy⟩,
    fun y hy => h.expr_acyclic y ⟨r, hr, hrx.trans hy⟩⟩

/-! ## Trees that are built from the leaves up -/

/-- Each node refers to earlier ones. -/
structure RefersBack (t : Tree) : Prop where
  operands : ∀ i (h : i < t.exprs.size), ∀ y ∈ t.exprs[i].form.children, y.index < i
  inside : ∀ i (h : i < t.stmts.size), ∀ s ∈ t.stmts[i].form.stmts, s.index < i
  held : ∀ i (h : i < t.stmts.size), ∀ x ∈ t.stmts[i].form.exprs, x.index < t.exprs.size
  outer : ∀ i ∈ t.items, ∀ x ∈ i.outer, x.index < t.exprs.size
  bodies : ∀ i ∈ t.items, ∀ s ∈ i.body, s.index < t.stmts.size

/-- In two parts, since the search for an instance does not get through all five at once. -/
instance (t : Tree) : Decidable t.RefersBack :=
  have nodes :
      Decidable ((∀ i (h : i < t.exprs.size), ∀ y ∈ t.exprs[i].form.children, y.index < i) ∧
      (∀ i (h : i < t.stmts.size), ∀ s ∈ t.stmts[i].form.stmts, s.index < i) ∧
      ∀ i (h : i < t.stmts.size), ∀ x ∈ t.stmts[i].form.exprs, x.index < t.exprs.size) :=
    inferInstance
  have items : Decidable ((∀ i ∈ t.items, ∀ x ∈ i.outer, x.index < t.exprs.size) ∧
      ∀ i ∈ t.items, ∀ s ∈ i.body, s.index < t.stmts.size) := inferInstance
  @decidable_of_iff _ _
    ⟨fun ⟨⟨operands, inside, held⟩, outer, bodies⟩ => ⟨operands, inside, held, outer, bodies⟩,
      fun h => ⟨⟨h.operands, h.inside, h.held⟩, h.outer, h.bodies⟩⟩
    (@instDecidableAnd _ _ nodes items)

namespace RefersBack

variable (h : t.RefersBack)
include h

theorem lt_of_operand {x y : ExprId} (hxy : t.Operand x y) :
    y.index < x.index ∧ x.index < t.exprs.size := by
  obtain ⟨node, hnode, hy⟩ := hxy
  obtain ⟨hx, rfl⟩ := Array.getElem?_eq_some_iff.mp hnode
  exact ⟨h.operands x.index hx y hy, hx⟩

theorem lt_of_inside {s r : StmtId} (hsr : t.Inside s r) :
    r.index < s.index ∧ s.index < t.stmts.size := by
  obtain ⟨node, hnode, hr⟩ := hsr
  obtain ⟨hs, rfl⟩ := Array.getElem?_eq_some_iff.mp hnode
  exact ⟨h.inside s.index hs r hr, hs⟩

theorem index_lt_of_holdsExpr {x : ExprId} (hx : t.HoldsExpr x) : x.index < t.exprs.size := by
  rcases hx with ⟨i, hi, hx⟩ | ⟨s, node, -, hnode, hx⟩
  · exact h.outer i hi x hx
  · obtain ⟨hs, rfl⟩ := Array.getElem?_eq_some_iff.mp hnode
    exact h.held s.index hs x hx

theorem soundAt {x : ExprId} (hx : x.index < t.exprs.size) : t.SoundAt x where
  expr_exists y hxy := by
    refine isSome_expr?.mpr ?_
    rcases hxy.cases_tail with rfl | ⟨z, -, hzy⟩
    · exact hx
    · exact Nat.lt_trans (h.lt_of_operand hzy).1 (h.lt_of_operand hzy).2
  expr_acyclic y _ hyy := by
    have hlt := lt_of_transGen ExprId.index (fun _ _ hxy => (h.lt_of_operand hxy).1) hyy
    exact Nat.lt_irrefl y.index hlt

theorem wellFormed : t.WellFormed where
  expr_exists x hx := by
    obtain ⟨r, hr, hrx⟩ := hx
    exact (h.soundAt (h.index_lt_of_holdsExpr hr)).expr_exists x hrx
  stmt_exists s hs := by
    obtain ⟨i, hi, top, htop, hts⟩ := hs
    refine isSome_stmt?.mpr ?_
    rcases hts.cases_tail with rfl | ⟨r, -, hrs⟩
    · exact h.bodies i hi _ htop
    · exact Nat.lt_trans (h.lt_of_inside hrs).1 (h.lt_of_inside hrs).2
  expr_acyclic x hx := by
    obtain ⟨r, hr, hrx⟩ := hx
    exact (h.soundAt (h.index_lt_of_holdsExpr hr)).expr_acyclic x hrx
  stmt_acyclic s _ hss := by
    have hlt := lt_of_transGen StmtId.index (fun _ _ hsr => (h.lt_of_inside hsr).1) hss
    exact Nat.lt_irrefl s.index hlt

end RefersBack

end Tree

/-! ## Wholeness -/

/-- Nothing dangles in the expression. -/
def Expr.Whole : Expr → Prop
  | .dangling _ => False
  | .literal .. | .name .. | .attempt .. | .now _ | .sizeOf .. | .taskOf .. => True
  | .monadic _ _ x | .paren _ x | .cont _ x => (x ()).Whole
  | .dyadic _ _ x y | .slice _ _ x y => (x ()).Whole ∧ (y ()).Whole

theorem Expr.Whole.site?_ne_none {x : Expr} (h : x.Whole) : x.site? ≠ none := by
  cases x with
  | dangling id => exact h.elim
  | _ => exact Option.some_ne_none _

/-- The errand can be carried out without meeting a dangling node. -/
def Errand.Whole : Errand → Prop
  | .resolve _ => True
  | .visit _ _ x => x.Whole
  | .missing => False

section Agenda

variable {table : SymbolTable} {scope : ScopeId}

theorem whole_of_mem_inFound {α : Type} {found : Except Diagnostic α} {agenda : α → List Errand}
    (h : ∀ a, ∀ e ∈ agenda a, e.Whole) : ∀ e ∈ inFound found agenda, e.Whole := by
  cases found with
  | error d => exact fun _ he => nomatch he
  | ok a => exact h a

/-- What follows a resolution is whole if it is so in whatever is found. -/
theorem whole_of_mem_resolve {α : Type} {r : Resolution} {found : Except Diagnostic α}
    {agenda : α → List Errand} (h : ∀ a, ∀ e ∈ agenda a, e.Whole) :
    ∀ e ∈ Errand.resolve r :: inFound found agenda, e.Whole :=
  List.forall_mem_cons.mpr ⟨trivial, whole_of_mem_inFound h⟩

theorem Declaration.whole_of_mem_initializerAgenda {decl : Declaration Expr} {i : Nat} {x : Expr}
    (hx : x.Whole) : ∀ e ∈ decl.initializerAgenda table scope i x, e.Whole := by
  unfold initializerAgenda
  cases decl.nameOf? i with
  | none => exact List.forall_mem_singleton.mpr trivial
  | some name =>
    cases hsite : x.site? with
    | none => exact (hx.site?_ne_none hsite).elim
    | some site =>
      refine List.forall_mem_cons.mpr ⟨trivial, ?_⟩
      cases table.variableHere? scope name with
      | none => exact fun _ he => nomatch he
      | some ty => exact List.forall_mem_singleton.mpr hx

theorem Declaration.whole_of_mem_initializersAgenda {decl : Declaration Expr} {i : Nat}
    {xs : List Expr} (h : ∀ x ∈ xs, x.Whole) :
    ∀ e ∈ decl.initializersAgenda table scope i xs, e.Whole := by
  induction xs generalizing i with
  | nil => exact fun _ he => nomatch he
  | cons x xs ih =>
    obtain ⟨hx, hxs⟩ := List.forall_mem_cons.mp h
    exact List.forall_mem_append.mpr ⟨decl.whole_of_mem_initializerAgenda hx, ih hxs⟩

theorem whole_of_mem_optionalAgenda {x : Option Expr} (h : ∀ y ∈ x, y.Whole) :
    ∀ e ∈ optionalAgenda scope x, e.Whole := by
  cases x with
  | none => exact fun _ he => nomatch he
  | some x => exact List.forall_mem_singleton.mpr (h x rfl)

theorem whole_of_mem_clausesAgenda {clauses : List (Clause × Expr)} (h : ∀ c ∈ clauses, c.2.Whole) :
    ∀ e ∈ clausesAgenda scope clauses, e.Whole := by
  intro e he
  obtain ⟨c, hc, rfl⟩ := List.mem_map.mp he
  exact h c hc

theorem whole_of_mem_agendaAll {body : List (Unit → Stmt)}
    (h : ∀ s ∈ body, ∀ e ∈ (s ()).agenda table scope, e.Whole) :
    ∀ e ∈ Stmt.agendaAll table scope body, e.Whole := by
  rw [Stmt.agendaAll_eq_flatMap]
  intro e he
  obtain ⟨s, hs, he⟩ := List.mem_flatMap.mp he
  exact h s hs e he

end Agenda

theorem Tree.SoundAt.whole {t : Tree} {x : ExprId} (h : t.SoundAt x) : (t.expr x).Whole := by
  refine level_induction ExprId.index (fun ⟨_⟩ ⟨_⟩ => congrArg ExprId.mk)
    (fun y hy => isSome_expr?.mp (h.expr_exists y hy)) (fun _ _ hy hyz => hy.tail hyz)
    h.expr_acyclic (motive := fun n y => (t.unfoldExpr n y).Whole) ?_ (Nat.le_refl _) .refl
  intro n y hy ih
  obtain ⟨node, hnode⟩ := Option.isSome_iff_exists.mp (h.expr_exists y hy)
  have hbelow : ∀ z ∈ node.form.children, (t.unfoldExpr n z).Whole :=
    fun z hz => ih z ⟨node, hnode, hz⟩
  unfold unfoldExpr
  rw [hnode]
  dsimp only
  generalize node.form = form at hbelow
  cases form with
  | monadic op y | paren y | cont y => exact hbelow y (List.mem_singleton_self y)
  | dyadic _ y z | slice _ y z =>
    exact ⟨hbelow y (List.mem_cons_self ..),
      hbelow z (List.mem_cons_of_mem y (List.mem_singleton_self z))⟩
  | literal | name | attempt | now | sizeOf | taskOf => exact trivial

theorem Tree.size_le_stmtLevels (t : Tree) : t.stmts.size ≤ t.stmtLevels :=
  Nat.le_mul_of_pos_right _ (Nat.succ_pos _)

namespace Tree.WellFormed

variable {t : Tree} (h : t.WellFormed)
include h

/-- Whatever holds of a statement one level up whenever it holds of the statements directly inside
holds of each statement that is reached, at a level that is no less than their number. -/
theorem stmt_induction {motive : Nat → StmtId → Prop}
    (step : ∀ n s node, t.ReachesStmt s → t.stmt? s = some node →
      (∀ r ∈ node.form.stmts, motive n r) → motive (n + 1) s)
    {n : Nat} (hn : t.stmts.size ≤ n) {s : StmtId} (hs : t.ReachesStmt s) : motive n s := by
  refine level_induction StmtId.index (fun ⟨_⟩ ⟨_⟩ => congrArg StmtId.mk)
    (fun s hs => isSome_stmt?.mp (h.stmt_exists s hs))
    (fun _ _ => ReachesStmt.inside) h.stmt_acyclic ?_ hn hs
  intro n s hs ih
  obtain ⟨node, hnode⟩ := Option.isSome_iff_exists.mp (h.stmt_exists s hs)
  exact step n s node hs hnode fun r hr => ih r ⟨node, hnode, hr⟩

theorem whole_expr {x : ExprId} (hx : t.HoldsExpr x) : (t.expr x).Whole :=
  (h.soundAt hx.reaches).whole

theorem whole_of_mem_stmt_agenda {s : StmtId} (hs : t.ReachesStmt s) (table : SymbolTable)
    (scope : ScopeId) : ∀ e ∈ (t.stmt s).agenda table scope, e.Whole := by
  refine h.stmt_induction
    (motive := fun n s => ∀ scope, ∀ e ∈ (t.unfoldStmt n s).agenda table scope, e.Whole)
    ?_ t.size_le_stmtLevels hs scope
  intro n s node hs hnode ih scope
  have hheld : ∀ x ∈ node.form.exprs, (t.expr x).Whole :=
    fun x hx => h.whole_expr (.inr ⟨s, node, hs, hnode, hx⟩)
  have hbody : ∀ (body : List StmtId), body ⊆ node.form.stmts → ∀ inner,
      ∀ e ∈ Stmt.agendaAll table inner (body.map fun id _ => t.unfoldStmt n id), e.Whole := by
    intro body hsub inner
    refine whole_of_mem_agendaAll fun r hr => ?_
    obtain ⟨id, hid, rfl⟩ := List.mem_map.mp hr
    exact ih id (hsub hid) inner
  unfold unfoldStmt
  rw [hnode]
  dsimp only
  generalize node.form = form at hheld hbody
  cases form with
  | declare decl =>
    exact Declaration.whole_of_mem_initializersAgenda (List.forall_mem_map.mpr hheld)
  | assign target value | eval x =>
    exact List.forall_mem_singleton.mpr (hheld _ (List.mem_singleton_self _))
  | block body => exact whole_of_mem_resolve (hbody body (List.Subset.refl _))
  | loop l =>
    refine whole_of_mem_resolve fun inner => ?_
    refine List.forall_mem_append.mpr ⟨?_, hbody l.body (List.Subset.refl _) inner⟩
    refine whole_of_mem_clausesAgenda (List.forall_mem_map.mpr fun c hc => ?_)
    exact hheld c.2 (StmtForm.mem_exprs_loop_iff.mpr ⟨c.1, hc⟩)
  | branch condition thenBody elseBody =>
    refine List.forall_mem_cons.mpr ⟨hheld _ (List.mem_singleton_self _), ?_⟩
    refine List.forall_mem_append.mpr ⟨?_, ?_⟩
    · exact hbody thenBody (List.subset_append_left ..) scope
    · exact hbody elseBody (List.subset_append_right ..) scope
  | ret value =>
    refine whole_of_mem_optionalAgenda fun y hy => ?_
    obtain ⟨x, hx, rfl⟩ := Option.map_eq_some_iff.mp hy
    exact hheld x (Option.mem_toList.mpr hx)

theorem whole_of_mem_body_agenda {i : Item ExprId StmtId} (hi : i ∈ t.items) (table : SymbolTable)
    (scope : ScopeId) : ∀ e ∈ Stmt.agendaAll table scope (t.body i.body), e.Whole := by
  refine whole_of_mem_agendaAll fun r hr => ?_
  obtain ⟨s, hs, rfl⟩ := List.mem_map.mp hr
  exact h.whole_of_mem_stmt_agenda ⟨i, hi, s, hs, .refl⟩ table scope

theorem whole_of_mem_item_agenda {i : Item ExprId StmtId} (hi : i ∈ t.items) (table : SymbolTable)
    (scope : ScopeId) : ∀ e ∈ (t.item i).agenda table scope, e.Whole := by
  have hheld : ∀ x ∈ i.outer, (t.expr x).Whole := fun x hx => h.whole_expr (.inl ⟨i, hi, hx⟩)
  have hbody := h.whole_of_mem_body_agenda hi table
  match i with
  | .variable decl =>
    exact Declaration.whole_of_mem_initializersAgenda (List.forall_mem_map.mpr hheld)
  | .procedure name body location => exact whole_of_mem_resolve hbody
  | .task name priority body location =>
    refine whole_of_mem_resolve fun inner => ?_
    refine List.forall_mem_append.mpr ⟨?_, hbody inner⟩
    refine whole_of_mem_optionalAgenda fun y hy => ?_
    obtain ⟨x, hx, rfl⟩ := Option.map_eq_some_iff.mp hy
    exact hheld x (Option.mem_toList.mpr hx)

/-- A traversal of a well-formed tree meets no dangling node. -/
theorem whole_of_mem_agenda (table : SymbolTable) : ∀ e ∈ t.program.agenda table, e.Whole := by
  intro e he
  obtain ⟨m', hm', he⟩ := List.mem_flatMap.mp he
  obtain ⟨m, hm, rfl⟩ := List.mem_map.mp hm'
  refine whole_of_mem_resolve (fun inner e he => ?_) e he
  obtain ⟨i', hi', he⟩ := List.mem_flatMap.mp he
  obtain ⟨i, hi, rfl⟩ := List.mem_map.mp hi'
  exact h.whole_of_mem_item_agenda (List.mem_flatMap.mpr ⟨m, hm, hi⟩) table inner e he

end Tree.WellFormed

/-! ## A unit

A module has an initialised variable and array, and a task whose scope has a `LENGTH` of its own.
The task is a loop from -3 by 2 to 12, while a bit is set and the variable is below 6. The loop
assigns to the variable and evaluates -3 once more.
-/

namespace Sample

def table : SymbolTable :=
  let (_, m, t) := (SymbolTable.new {}).openModule "m"
  let (_, t) := t.declare m "x" (.variable (.fixed 7) false)
  let (_, t) := t.declare m "f" (.variable (.array (.float 53)) false)
  let (_, task, t) := t.openTask m "t" true false
  let (_, t) := (t.setLengths task (some 20) none).openStatement ⟨2⟩ task
  t

def tree : Tree where
  modules := [⟨"m", [.variable ⟨["x", "f"], [⟨0⟩, ⟨1⟩], .unknown⟩, .task "t" none [⟨2⟩] .unknown],
    .unknown⟩]
  exprs := #[⟨.literal (.fixed "5" none), .unknown, "5"⟩,
    ⟨.literal (.float "1.5" none), .unknown, "1.5"⟩,
    ⟨.literal (.fixed "3" none), .unknown, "3"⟩, ⟨.monadic .minus ⟨2⟩, .unknown, "-3"⟩,
    ⟨.literal (.bits "1" 1), .unknown, "'1'B1"⟩,
    ⟨.literal (.fixed "9" (some 4)), .unknown, "9(4)"⟩,
    ⟨.literal (.fixed "3" none), .unknown, "3"⟩, ⟨.monadic .minus ⟨6⟩, .unknown, "-3"⟩,
    ⟨.literal (.fixed "2" none), .unknown, "2"⟩, ⟨.literal (.fixed "12" none), .unknown, "12"⟩,
    ⟨.name "x", .unknown, "x"⟩, ⟨.literal (.fixed "6" none), .unknown, "6"⟩,
    ⟨.dyadic .lt ⟨10⟩ ⟨11⟩, .unknown, "x < 6"⟩,
    ⟨.dyadic .and ⟨4⟩ ⟨12⟩, .unknown, "'1'B1 AND x < 6"⟩]
  stmts := #[⟨.assign "x" ⟨5⟩, .unknown⟩, ⟨.eval ⟨7⟩, .unknown⟩,
    ⟨.loop ⟨none, some ⟨3⟩, some ⟨8⟩, some ⟨9⟩, some ⟨13⟩, [⟨0⟩, ⟨1⟩]⟩, .unknown⟩]

theorem refersBack_tree : tree.RefersBack := by decide

end Sample

end Pearl
