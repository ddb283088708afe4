import Pearl.Proofs.Typing.Faults
import Pearl.Proofs.Typing.Names

/-! # Constant expressions and expressions that are variables

Whether an expression is constant, and which variable it is, can be read off the tree. Of what is
known where an expression stands only the table and the scope matter. An expression that has a value
at run time only makes all expressions around it run-time values, and parentheses are the only way
to write a variable but its name.
-/

namespace Pearl

open Relation

/-- A form that leaves an expression constant if its operands are. -/
def ExprForm.Constant (table : SymbolTable) (scope : ScopeId) : ExprForm → Prop
  | .literal _ | .monadic .. | .dyadic .. | .paren _ => True
  | .name ident => ∃ id ty, table.NamesVariable scope ident id ty true
  | .attempt _ | .now | .sizeOf _ | .taskOf _ | .cont _ | .slice .. => False

namespace Tree

variable (t : Tree) (table : SymbolTable) (scope : ScopeId)

/-- Nothing below an expression, itself included, has a value at run time only. -/
def IsConstant (x : ExprId) : Prop :=
  ∀ y node, ReflTransGen t.Operand x y → t.expr? y = some node → node.form.Constant table scope

/-- The second expression is the first without some of the parentheses around it. -/
def Wraps : ExprId → ExprId → Prop :=
  ReflTransGen fun x y => ∃ node, t.expr? x = some node ∧ node.form = .paren y

/-- Without parentheses around it, the expression is the name of a variable. -/
def IsVariable (x : ExprId) (id : SymbolId) : Prop :=
  ∃ y node ident ty inv, t.Wraps x y ∧ t.expr? y = some node ∧ node.form = .name ident ∧
    table.NamesVariable scope ident id ty inv

variable {t table scope} {x : ExprId} {node : ExprNode}

theorem isConstant_iff (hnode : t.expr? x = some node) : t.IsConstant table scope x ↔
    node.form.Constant table scope ∧ ∀ y ∈ node.form.children, t.IsConstant table scope y := by
  constructor
  · intro h
    exact ⟨h x node .refl hnode, fun y hy z node' hyz => h z node' (.head ⟨node, hnode, hy⟩ hyz)⟩
  · rintro ⟨hform, hbelow⟩ z node' hxz hnode'
    rcases hxz.cases_head with rfl | ⟨y, ⟨node'', hnode'', hy⟩, hyz⟩
    · cases hnode.symm.trans hnode'
      exact hform
    · cases hnode.symm.trans hnode''
      exact hbelow y hy z node' hyz hnode'

theorem isVariable_iff (hnode : t.expr? x = some node) {id : SymbolId} :
    t.IsVariable table scope x id ↔
    (∃ ident, node.form = .name ident ∧ ∃ ty inv, table.NamesVariable scope ident id ty inv) ∨
      ∃ y, node.form = .paren y ∧ t.IsVariable table scope y id := by
  constructor
  · rintro ⟨z, node', ident, ty, inv, hwraps, hnode', hform, hvariable⟩
    rcases hwraps.cases_head with rfl | ⟨y, ⟨node'', hnode'', hparen⟩, hwraps⟩
    · cases hnode.symm.trans hnode'
      exact .inl ⟨ident, hform, ty, inv, hvariable⟩
    · cases hnode.symm.trans hnode''
      exact .inr ⟨y, hparen, z, node', ident, ty, inv, hwraps, hnode', hform, hvariable⟩
  · rintro (⟨ident, hform, ty, inv, hvariable⟩ |
      ⟨y, hparen, z, node', ident, ty, inv, hwraps, hrest⟩)
    · exact ⟨x, node, ident, ty, inv, .refl, hnode, hform, hvariable⟩
    · exact ⟨z, node', ident, ty, inv, .head ⟨node, hnode, hparen⟩ hwraps, hrest⟩

end Tree

namespace TypingTable

open Judgement

section Step

variable {c : Context} {x : Expr} {r : Typing} {form : ExprForm}

/-- What is known of a name as a constant and as a variable. -/
theorem flags_of_judgeName {site : ExprSite} {ident : String} (h : judgeName c site ident = .ok r) :
    (r.constant = true ↔ ∃ id ty, c.table.NamesVariable c.scope ident id ty true) ∧
      ∀ id, r.var = some id ↔ ∃ ty inv, c.table.NamesVariable c.scope ident id ty inv := by
  rcases judgeName_cases h with ⟨id, ty, inv, hvariable, rfl⟩ | ⟨ty, hfunction, rfl⟩
  · refine ⟨⟨?_, ?_⟩, fun id' => ⟨?_, ?_⟩⟩
    · rintro rfl
      exact ⟨id, ty, hvariable⟩
    · rintro ⟨id', ty', hnamed⟩
      exact (hvariable.unique hnamed).2.2
    · rintro ⟨⟩
      exact ⟨ty, inv, hvariable⟩
    · rintro ⟨ty', inv', hnamed⟩
      rw [(hvariable.unique hnamed).1]
  · have hnone : ∀ id ty' inv, ¬c.table.NamesVariable c.scope ident id ty' inv :=
      fun _ _ _ => hfunction.not_namesVariable
    simp [Typing.runtime, hnone]

/-- An expression is constant if its form allows it and the operands are constant. It is a variable
if it is the name of one, or stands in parentheses and was one before. -/
theorem flags_of_judge (h : (judge c x).outcome = .ok r) (hform : x.form? = some form) :
    (r.constant = true ↔ form.Constant c.table c.scope ∧
      ∀ y ∈ x.operands, ∀ s, (judge c y).outcome = .ok s → s.constant = true) ∧
    ∀ id, r.var = some id ↔
      (∃ ident, form = .name ident ∧ ∃ ty inv, c.table.NamesVariable c.scope ident id ty inv) ∨
        (∃ y, form = .paren y) ∧ ∀ y ∈ x.operands, ∀ s, (judge c y).outcome = .ok s →
        s.var = some id := by
  cases x with
  | dangling => cases hform
  | literal site value =>
    cases hform
    obtain ⟨k, -, rfl⟩ := map_eq_ok.mp (ok_of_conclude h).1
    simp [Expr.operands, Typing.ofConstant, ExprForm.Constant]
  | name site ident =>
    cases hform
    simpa [Expr.operands, ExprForm.Constant] using flags_of_judgeName (ok_of_conclude h).1
  | now | sizeOf | taskOf =>
    cases hform
    cases h
    simp [Typing.runtime, ExprForm.Constant]
  | attempt site semaphores =>
    cases hform
    have hrun := (ok_of_conclude h).1
    split at hrun
    · cases hrun
    · cases hrun
      simp [Typing.runtime, ExprForm.Constant]
  | monadic site op x =>
    cases hform
    rw [Expr.operands, List.forall_mem_singleton]
    rcases judge_monadic_cases h with ⟨inner, value, ty, hx, hbound, hj⟩ | ⟨s, ty, -, hs, -, rfl, -⟩
    · rw [hj] at h
      cases h
      rw [hx] at hbound ⊢
      obtain ⟨g, hg⟩ := exists_fixed_of_judgeBound hbound
      simp [hg, Typing.ofConstant, ExprForm.Constant]
    · simp [hs, ExprForm.Constant]
  | paren site x =>
    cases hform
    obtain ⟨s, hs, h, -⟩ := ok_of_andThen h
    cases h
    simp [Expr.operands, hs, ExprForm.Constant]
  | dyadic site op x y =>
    cases hform
    obtain ⟨s, s', hs, hs', h, -, -⟩ := ok_of_andThen₂ h
    obtain ⟨ty, -, rfl⟩ := map_eq_ok.mp (ok_of_conclude h).1
    simp [Expr.operands, hs, hs', ExprForm.Constant]
  | cont site x =>
    cases hform
    obtain ⟨s, -, h, -⟩ := ok_of_andThen h
    have hrule := (ok_of_conclude h).1
    split at hrule
    · cases hrule
      simp [Typing.runtime, ExprForm.Constant]
    · cases hrule
  | slice site kind x y =>
    cases hform
    obtain ⟨s, s', -, -, h, -, -⟩ := ok_of_andThen₂ h
    cases h
    simp [Typing.runtime, ExprForm.Constant]

end Step

/-! ## Expressions of a tree -/

section Run

variable {tree : Tree} {c : Context} {x : ExprId} {r : Typing}

/-- An expression that can be typed is a constant or a variable if it is one by its structure. -/
theorem flags_of_soundAt (hx : tree.SoundAt x) (h : (judge c (tree.expr x)).outcome = .ok r) :
    (r.constant = true ↔ tree.IsConstant c.table c.scope x) ∧
      ∀ id, r.var = some id ↔ tree.IsVariable c.table c.scope x id := by
  generalize hexpr : tree.expr x = e at h
  induction e using Expr.operands_induction generalizing x r with
  | step e ih =>
    subst hexpr
    obtain ⟨node, hnode, hform, -, hoperands⟩ := hx.exists_node
    obtain ⟨hconstant, hvariable⟩ := flags_of_judge h hform
    have hbelow : ∀ y ∈ node.form.children, ∃ s, (judge c (tree.expr y)).outcome = .ok s ∧
        (s.constant = true ↔ tree.IsConstant c.table c.scope y) ∧
          ∀ id, s.var = some id ↔ tree.IsVariable c.table c.scope y id := by
      intro y hy
      have hmem : tree.expr y ∈ (tree.expr x).operands := hoperands ▸ List.mem_map_of_mem hy
      obtain ⟨s, hs⟩ := exists_judge_of_operand h hmem
      exact ⟨s, hs, ih _ hmem (hx.below (.single ⟨node, hnode, hy⟩)) rfl hs⟩
    rw [hoperands] at hconstant hvariable
    simp only [List.forall_mem_map] at hconstant hvariable
    rw [Tree.isConstant_iff hnode, hconstant]
    refine ⟨and_congr_right fun _ => forall₂_congr fun y hy => ?_, fun id => ?_⟩
    · obtain ⟨s, hs, hflag, -⟩ := hbelow y hy
      simp [hs, hflag]
    · rw [Tree.isVariable_iff hnode, hvariable]
      refine or_congr_right ?_
      constructor
      · rintro ⟨⟨y, hparen⟩, hinner⟩
        have hy : y ∈ node.form.children := hparen ▸ List.mem_singleton_self y
        obtain ⟨s, hs, -, hlink⟩ := hbelow y hy
        exact ⟨y, hparen, (hlink id).mp (hinner y hy s hs)⟩
      · rintro ⟨y, hparen, hinner⟩
        refine ⟨⟨y, hparen⟩, fun z hz s hs => ?_⟩
        obtain ⟨s', hs', -, hlink⟩ := hbelow z hz
        rw [hparen] at hz
        obtain rfl : z = y := List.mem_singleton.mp hz
        cases hs.symm.trans hs'
        exact (hlink id).mpr hinner

/-- The entries that typing an expression makes have the flags of the structure. A number in a loop
bound is a constant and no variable, also where it is entered with its sign. -/
theorem flags_of_entered (hx : tree.SoundAt x) {y : ExprId} {s : Typing}
    (hs : (y, s) ∈ (judge c (tree.expr x)).log) :
    (s.constant = true ↔ tree.IsConstant c.table c.scope y) ∧
      ∀ id, s.var = some id ↔ tree.IsVariable c.table c.scope y id := by
  obtain ⟨e, hpart, hid, htyped⟩ := exists_part_of_entered hs
  obtain ⟨z, rfl, hxz⟩ := hx.exists_expr_of_part hpart
  obtain rfl : z = y := by simpa using hid
  have hz := hx.below hxz
  rcases htyped with htyped | ⟨site, value, ty, hliteral, rfl⟩
  · exact flags_of_soundAt hz htyped
  · obtain ⟨node, hnode, hform, -, -⟩ := hz.exists_node
    have hnumber : node.form = .literal value := by
      rw [hliteral] at hform
      exact (Option.some.inj hform).symm
    rw [Tree.isConstant_iff hnode, hnumber]
    refine ⟨by simp [Typing.ofConstant, ExprForm.Constant, ExprForm.children], fun id => ?_⟩
    rw [Tree.isVariable_iff hnode, hnumber]
    simp [Typing.ofConstant]

theorem flags_of_infer (hx : tree.SoundAt x) {t : TypingTable} {w : Walker TypingTable}
    (h : (infer (tree.expr x)).runFrom ⟨c, t⟩ = (.ok (), w)) {y : ExprId}
    (hxy : ReflTransGen tree.Operand x y) :
    ∃ r, w.store.get? y = some r ∧ (r.constant = true ↔ tree.IsConstant c.table c.scope y) ∧
      ∀ id, r.var = some id ↔ tree.IsVariable c.table c.scope y id := by
  rw [judges_infer] at h
  obtain ⟨houtcome, rfl⟩ := Prod.mk.inj h
  obtain ⟨s, hs, -⟩ := map_eq_ok.mp houtcome
  have hy : y ∈ (judge c (tree.expr x)).log.map Prod.fst :=
    (ids_perm_of_judge hs).mem_iff.mpr (hx.mem_ids.mpr hxy)
  obtain ⟨r, hr, hget⟩ := exists_mem_get?_insertAll hy
  exact ⟨r, hget t, flags_of_entered hx hr⟩

end Run

/-- What typing an expression enters for the expressions below it, itself included, has the flags of
the structure. So it is in any context with the same table and scope, whatever precisions are in
effect there. -/
theorem flags_structural (tree : Tree) (x : ExprId) (hx : tree.SoundAt x) (c : Context)
    (t : TypingTable) (w : Walker TypingTable)
    (h : (infer (tree.expr x)).runFrom ⟨c, t⟩ = (.ok (), w)) (y : ExprId)
    (hxy : ReflTransGen tree.Operand x y) :
    ∃ r, w.store.get? y = some r ∧ (r.constant = true ↔ tree.IsConstant c.table c.scope y) ∧
      (∀ id, r.var = some id ↔ tree.IsVariable c.table c.scope y id) ∧
      ∀ c' t' w', c'.table = c.table → c'.scope = c.scope →
        (infer (tree.expr x)).runFrom ⟨c', t'⟩ = (.ok (), w') →
        ∃ r', w'.store.get? y = some r' ∧ r'.constant = r.constant ∧ r'.var = r.var := by
  obtain ⟨r, hr, hconstant, hvariable⟩ := flags_of_infer hx h hxy
  refine ⟨r, hr, hconstant, hvariable, fun c' t' w' htable hscope h' => ?_⟩
  obtain ⟨r', hr', hconstant', hvariable'⟩ := flags_of_infer hx h' hxy
  rw [htable, hscope] at hconstant' hvariable'
  refine ⟨r', hr', ?_, Option.ext fun id => (hvariable' id).trans (hvariable id).symm⟩
  exact Bool.eq_iff_iff.mpr (hconstant'.trans hconstant.symm)

end TypingTable

/-! ## A guarded variable in a loop bound -/

namespace Sample

def guardedTable : SymbolTable :=
  let (_, m, t) := (SymbolTable.new {}).openModule "m"
  let (_, t) := t.declare m "k" (.variable (.fixed 15) true)
  (t.declare m "x" (.variable (.fixed 7) false)).2

def guardedTree : Tree where
  modules := []
  exprs := #[⟨.name "k", .unknown, "k"⟩, ⟨.paren ⟨0⟩, .unknown, "(k)"⟩,
    ⟨.literal (.fixed "3" none), .unknown, "3"⟩, ⟨.monadic .minus ⟨2⟩, .unknown, "-3"⟩,
    ⟨.dyadic .add ⟨1⟩ ⟨3⟩, .unknown, "(k) + -3"⟩, ⟨.name "x", .unknown, "x"⟩,
    ⟨.dyadic .add ⟨4⟩ ⟨5⟩, .unknown, "(k) + -3 + x"⟩]
  stmts := #[]

theorem refersBack_guardedTree : guardedTree.RefersBack := by decide

end Sample

/-- In (k) + -3 + x the sum of the guarded variable and the number is a constant, the whole sum is
not, and (k) is the variable k. -/
theorem TypingTable.flags_structural_guarded :
    let bound : Context := { (Context.new Sample.guardedTable).inside ⟨1⟩ with inBound := true }
    Sample.guardedTree.SoundAt ⟨6⟩ ∧
      ∃ w, (infer (Sample.guardedTree.expr ⟨6⟩)).runFrom ⟨bound, empty⟩ = (.ok (), w) ∧
        w.store.get? ⟨4⟩ = some ⟨.fixed 15, true, none⟩ ∧
        Sample.guardedTree.IsConstant Sample.guardedTable ⟨1⟩ ⟨4⟩ ∧
        w.store.get? ⟨6⟩ = some ⟨.fixed 15, false, none⟩ ∧
        ¬Sample.guardedTree.IsConstant Sample.guardedTable ⟨1⟩ ⟨6⟩ ∧
        w.store.get? ⟨1⟩ = some ⟨.fixed 15, true, some ⟨1⟩⟩ ∧
        Sample.guardedTree.IsVariable Sample.guardedTable ⟨1⟩ ⟨1⟩ ⟨1⟩ := by
  intro bound
  have hx : Sample.guardedTree.SoundAt ⟨6⟩ := Sample.refersBack_guardedTree.soundAt (by decide)
  have hbelow : ∀ y : ExprId, y ∈ (Sample.guardedTree.expr ⟨6⟩).ids →
      ReflTransGen Sample.guardedTree.Operand ⟨6⟩ y := fun y => hx.mem_ids.mp
  have hentries :
      ∀ e ∈ [((⟨4⟩ : ExprId), (⟨.fixed 15, true, none⟩ : Typing)), (⟨6⟩, ⟨.fixed 15, false, none⟩),
      (⟨1⟩, ⟨.fixed 15, true, some ⟨1⟩⟩)],
      ((infer (Sample.guardedTree.expr ⟨6⟩)).runFrom ⟨bound, empty⟩).2.store.get? e.1 =
        some e.2 := by
    decide
  have hrun : ((infer (Sample.guardedTree.expr ⟨6⟩)).runFrom ⟨bound, empty⟩).1 = .ok () := by decide
  generalize hw : (infer (Sample.guardedTree.expr ⟨6⟩)).runFrom ⟨bound, empty⟩ =
    run at hrun hentries
  obtain ⟨outcome, w⟩ := run
  cases hrun
  have hflags := flags_structural Sample.guardedTree ⟨6⟩ hx bound empty w hw
  simp only [List.forall_mem_cons] at hentries
  obtain ⟨hsum, hwhole, hname, -⟩ := hentries
  obtain ⟨r, hr, hconstant, -, -⟩ := hflags ⟨4⟩ (hbelow _ (by decide))
  obtain ⟨r', hr', hconstant', -, -⟩ := hflags ⟨6⟩ (hbelow _ (by decide))
  obtain ⟨r'', hr'', -, hvariable, -⟩ := hflags ⟨1⟩ (hbelow _ (by decide))
  cases hsum.symm.trans hr
  cases hwhole.symm.trans hr'
  cases hname.symm.trans hr''
  exact ⟨hx, w, rfl, hr, hconstant.mp rfl, hr', fun h => Bool.false_ne_true (hconstant'.mpr h),
    hr'', (hvariable ⟨1⟩).mp rfl⟩

end Pearl
