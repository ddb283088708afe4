import Pearl.Proofs.SymbolTable.Lexical
import Pearl.Proofs.Tree.Origin
import Pearl.Proofs.Typing.Faults

/-! # The first violation of a rule

A traversal completes expressions in a certain order, operands before the expression they belong to.
If typing a unit ends with a complaint of the rules, it is about an expression whose operands can be
typed and whose rule refuses their types. Location and text are those of this very expression, and
all that was completed before it can be typed. No violation is passed over: a diagnostic is
reported, unless strings whose lengths cannot be added come first.
-/

namespace Pearl

/-- A complaint of the rules is put down to the place, with the text of the place or the missing
feature. -/
theorem Violation.of_halt {v : Violation} {location : Location} {text : String} {d : Diagnostic}
    (h : v.halt location text = .reported d) : d.location = location ∧
      (d.text = text ∨ d.complaint = .notYetImplemented d.text) := by
  cases v with
  | lengthOverflow => cases h
  | illegalExpression | typeMismatch =>
    cases h
    exact ⟨rfl, .inl rfl⟩
  | notYetImplemented feature =>
    cases h
    exact ⟨rfl, .inr rfl⟩

theorem Resolution.complaint_of_outcome {table : SymbolTable} {r : Resolution} {d : Diagnostic}
    (h : r.outcome table = .error d) : d.complaint = .internalCompilerError := by
  cases r with
  | owner scope form name location =>
    have hfound := map_eq_error.mp h
    simp only [SymbolTable.ownerScope, Context.ownerScope] at hfound
    split at hfound
    · cases hfound
    · cases hfound
      rfl
  | statement stmt location =>
    have hfound := map_eq_error.mp h
    simp only [Context.stmtScope] at hfound
    split at hfound
    · cases hfound
    · cases hfound
      rfl
  | «variable» scope name location =>
    simp only [outcome] at h
    split at h
    · cases h
    · cases h
      rfl
  | nameless location =>
    cases h
    rfl

namespace TypingTable

variable {c : Context} {x y : Expr} {r : Typing} {v : Violation}

/-! ## Typing in a context -/

/-- Inference in the context types the expression as given, whatever the table has so far. -/
def Types (c : Context) (x : Expr) (r : Typing) : Prop :=
  ∀ t, ∃ t', (infer x).runFrom ⟨c, t⟩ = (.ok (), ⟨c, t'⟩) ∧ t'.get? x.id = some r

theorem types_iff : Types c x r ↔ (judge c x).outcome = .ok r := by
  have hrun := judges_infer (c := c) x
  constructor
  · intro h
    obtain ⟨t', ht', hget⟩ := h (withRoom 0)
    rw [hrun] at ht'
    obtain ⟨hok, hstore⟩ := Prod.mk.inj ht'
    obtain ⟨s, hs, -⟩ := map_eq_ok.mp hok
    cases hstore
    rw [get?_insertAll_of_getLast? _ (endsAt_judge c x s hs)] at hget
    rw [hs, Option.some.inj hget]
  · intro h t
    refine ⟨t.insertAll (judge c x).log, ?_, get?_insertAll_of_getLast? t (endsAt_judge c x r h)⟩
    rw [hrun, h]
    rfl

/-! ## Violations -/

/-- An expression whose rule refuses the operands has no type. A number that is judged together with
its sign has one that the sign takes. -/
theorem Violates.judge_ne_ok (h : Violates c x v) : (judge c x).outcome ≠ .ok r := by
  intro hr
  obtain ⟨form, hform, rs, hrs, hrule⟩ := h
  cases x with
  | dangling => cases hform
  | literal | name | attempt | now | sizeOf | taskOf =>
    cases hform
    cases hrs
    cases hrule
  | paren | slice =>
    cases hform
    cases hrule
  | monadic site op x =>
    cases hform
    obtain ⟨s, rest, hs, hrest, rfl⟩ := List.forall₂_cons_left_iff.mp hrs
    cases hrest
    have hrefused : op.result s.ty = .error v := Option.some.inj hrule
    rcases judge_monadic_cases hr with ⟨inner, value, ty, hx, hbound, -⟩ | ⟨s', ty, -, hs', hty, -⟩
    · obtain ⟨rfl, -⟩ := fixed_of_judgeBound hbound
      rw [hx] at hbound hs
      obtain ⟨g, hg⟩ := exists_fixed_of_judgeBound hbound
      cases hs.symm.trans hg
      cases hrefused
    · cases hs.symm.trans hs'
      cases hrefused.symm.trans hty
  | dyadic site op x z =>
    cases hform
    obtain ⟨s, _, hs, hrest, rfl⟩ := List.forall₂_cons_left_iff.mp hrs
    obtain ⟨t, _, ht, hnone, rfl⟩ := List.forall₂_cons_left_iff.mp hrest
    cases hnone
    obtain ⟨s', t', hs', ht', hok, -⟩ := Judgement.ok_of_andThen₂ hr
    cases hs.symm.trans hs'
    cases ht.symm.trans ht'
    obtain ⟨ty, hty, -⟩ := map_eq_ok.mp (Judgement.ok_of_conclude hok).1
    cases (Option.some.inj hrule).symm.trans (judgeRule_eq_ok hty)
  | cont site x =>
    cases hform
    obtain ⟨s, rest, hs, hrest, rfl⟩ := List.forall₂_cons_left_iff.mp hrs
    cases hrest
    obtain ⟨s', hs', hok, -⟩ := Judgement.ok_of_andThen hr
    cases hs.symm.trans hs'
    have hty := (Judgement.ok_of_conclude hok).1
    split at hty
    · rename_i htarget
      rw [List.map_singleton, htarget] at hrule
      cases hrule
    · cases hty

theorem Violates.exists_judge (h : Violates c x v) (hy : y ∈ x.operands) :
    ∃ r, (judge c y).outcome = .ok r := by
  obtain ⟨form, -, rs, hrs, -⟩ := h
  generalize x.operands = ys at hrs hy
  induction hrs with
  | nil => cases hy
  | @cons z r _ _ hr _ ih =>
    rcases List.mem_cons.mp hy with rfl | hy
    · exact ⟨r, hr⟩
    · exact ih hy

end TypingTable

/-! ## The order of completion -/

open TypingTable

/-- The expressions that an errand completes, in order, each with the context that it is typed
in. -/
def Errand.completions (table : SymbolTable) : Errand → List (Context × Expr)
  | .visit scope place x => match frame ((Context.new table).inside scope) place with
    | .ok c => x.postorder.map (c, ·)
    | .error _ => []
  | .resolve _ | .missing => []

/-- The expressions that a traversal completes, in order. -/
def Program.completions (table : SymbolTable) (p : Program) : List (Context × Expr) :=
  (p.agenda table).flatMap (Errand.completions table)

namespace Errand

variable {table : SymbolTable} {e : Errand} {halt : Halt}

theorem exists_judge_of_typed (h : e.typed table = .ok ()) {b : Context × Expr}
    (hb : b ∈ e.completions table) : ∃ r, (judge b.1 b.2).outcome = .ok r := by
  cases e with
  | resolve | missing => cases hb
  | visit scope place x =>
    obtain ⟨c, r, hframe, hr, -⟩ := judge_of_typed h
    simp only [completions, hframe] at hb
    obtain ⟨y, hy, rfl⟩ := List.mem_map.mp hb
    exact exists_judge_of_part hr (Expr.mem_postorder_iff.mp hy)

/-- Entries are made as expressions are completed. -/
theorem map_fst_log (h : e.typed table = .ok ()) :
    (e.log table).map Prod.fst = (e.completions table).map fun b => b.2.id := by
  cases e with
  | resolve | missing => rfl
  | visit scope place x =>
    obtain ⟨c, r, hframe, hr, hlog⟩ := judge_of_typed h
    simp only [completions, hframe]
    rw [hlog, map_fst_log_of_judge hr, List.map_map]
    rfl

theorem exists_first_violation (h : e.typed table = .error halt) (hhalt : halt.OfRule) :
    ∃ before c x after, e.completions table = before ++ (c, x) :: after ∧
      (∀ b ∈ before, ∃ r, (judge b.1 b.2).outcome = .ok r) ∧
      ∃ site v, x.site? = some site ∧ Violates c x v ∧ v.halt site.location site.text = halt := by
  cases e with
  | missing =>
    cases h
    exact hhalt.elim
  | resolve r =>
    obtain ⟨d, hr, rfl⟩ := outcome_of_typed h
    rw [Halt.OfRule, Resolution.complaint_of_outcome hr] at hhalt
    exact hhalt.elim
  | visit scope place x =>
    rcases fault_of_typed h with ⟨d, hframe, rfl⟩ | ⟨c, hframe, hjudge⟩
    · rw [Halt.OfRule, complaint_of_frame hframe] at hhalt
      exact hhalt.elim
    · obtain ⟨before, y, after, hsplit, hbefore, hfails⟩ := failsFirst_of_judge hjudge
      obtain ⟨site, v, hsite, hv, hhalt⟩ := hfails.violates hhalt
      refine ⟨before.map (c, ·), c, y, after.map (c, ·), ?_, ?_, site, v, hsite, hv, hhalt⟩
      · simp only [completions, hframe, hsplit, List.map_append, List.map_cons]
      · intro b hb
        obtain ⟨z, hz, rfl⟩ := List.mem_map.mp hb
        rcases hbefore z hz with hz | hz
        · exact hv.exists_judge hz
        · exact hz

end Errand

namespace TypingTable

variable {table : SymbolTable} {p : Program} {n : Nat} {halt : Halt}

/-- Where the rules end an analysis, it ends at the first expression that cannot be typed. -/
theorem exists_first_violation (h : ofProgram table n p = .error halt) (hhalt : halt.OfRule) :
    ∃ before c x after, p.completions table = before ++ (c, x) :: after ∧
      (∀ b ∈ before, ∃ r, Types b.1 b.2 r) ∧
      ∃ site v, x.site? = some site ∧ Violates c x v ∧ v.halt site.location site.text = halt := by
  obtain ⟨left, e, right, hsplit, hleft, he⟩ := ofProgram_eq_error_iff.mp h
  obtain ⟨before, c, x, after, hcompletions, hbefore, hviolation⟩ :=
    Errand.exists_first_violation he hhalt
  refine ⟨left.flatMap (Errand.completions table) ++ before, c, x,
    after ++ right.flatMap (Errand.completions table), ?_, ?_, hviolation⟩
  · rw [Program.completions, hsplit, List.flatMap_append, List.flatMap_cons, hcompletions]
    simp only [List.append_assoc, List.cons_append]
  · simp only [types_iff]
    intro b hb
    rcases List.mem_append.mp hb with hb | hb
    · obtain ⟨e, he, hb⟩ := List.mem_flatMap.mp hb
      exact Errand.exists_judge_of_typed (hleft e he) hb
    · exact hbefore b hb

theorem exists_error_of_violates {c : Context} {x : Expr} {v : Violation}
    (hx : (c, x) ∈ p.completions table) (hv : Violates c x v) :
    ∃ halt, ofProgram table n p = .error halt := by
  cases h : ofProgram table n p with
  | error halt => exact ⟨halt, rfl⟩
  | ok t =>
    obtain ⟨e, he, hx⟩ := List.mem_flatMap.mp hx
    obtain ⟨r, hr⟩ := Errand.exists_judge_of_typed ((ofProgram_eq_ok_iff.mp h).1 e he) hx
    exact (hv.judge_ne_ok hr).elim

/-! ## Trees -/

/-- In the context, the operands of the node can be typed, and its rule refuses their types. -/
def Refuses (c : Context) (tree : Tree) (node : ExprNode) (v : Violation) : Prop :=
  ∃ rs, List.Forall₂ (fun y r => Types c (tree.expr y) r) node.form.children rs ∧
    node.form.rule? c.table.defaults.durationRatioPrecision (rs.map Typing.ty) = some (.error v)

theorem violates_expr_iff {c : Context} {tree : Tree} {x : ExprId} {node : ExprNode} {v : Violation}
    (h : tree.SoundAt x) (hnode : tree.expr? x = some node) :
    Violates c (tree.expr x) v ↔ Refuses c tree node v := by
  obtain ⟨node', hnode', hform, -, hoperands⟩ := h.exists_node
  cases hnode.symm.trans hnode'
  simp only [Violates, Refuses, hform, hoperands, List.forall₂_map_left_iff, types_iff,
    Option.some.injEq, exists_eq_left']

/-- What is completed in a well-formed tree are expressions that the references lead to. -/
theorem exists_reaches_of_completion {tree : Tree} (hwf : tree.WellFormed) {b : Context × Expr}
    (hb : b ∈ tree.program.completions table) : ∃ x, b.2 = tree.expr x ∧ tree.ReachesExpr x := by
  obtain ⟨e, he, hb⟩ := List.mem_flatMap.mp hb
  cases e with
  | resolve | missing => cases hb
  | visit scope place x =>
    simp only [Errand.completions] at hb
    split at hb
    · obtain ⟨y, hy, rfl⟩ := List.mem_map.mp hb
      obtain ⟨r, hr, rfl⟩ := Tree.exists_holds_of_mem_program (Program.mem_exprs_of_visit he)
      obtain ⟨z, hz, hrz⟩ :=
        (hwf.soundAt hr.reaches).exists_expr_of_part (Expr.mem_postorder_iff.mp hy)
      exact ⟨z, hz, r, hr, hrz⟩
    · cases hb

/-- In a unit that can be typed everything that the references lead to is completed. -/
theorem exists_completion_of_reaches {tree : Tree} (hwf : tree.WellFormed)
    (htyped : ∀ e ∈ tree.program.agenda table, e.typed table = .ok ()) {x : ExprId}
    (hx : tree.ReachesExpr x) : ∃ c, (c, tree.expr x) ∈ tree.program.completions table := by
  obtain ⟨r, hr, hrx⟩ := hx
  have hmem := hwf.expr_mem_program hr
  rw [← tree.program.visits_agenda fun e he => Errand.passed_of_typed (htyped e he)] at hmem
  obtain ⟨e, he, hexpr⟩ := List.mem_filterMap.mp hmem
  cases e with
  | resolve | missing => cases hexpr
  | visit scope place y =>
    cases hexpr
    obtain ⟨c, s, hframe, -⟩ := Errand.judge_of_typed (htyped _ he)
    refine ⟨c, List.mem_flatMap.mpr ⟨_, he, ?_⟩⟩
    simp only [Errand.completions, hframe]
    exact List.mem_map_of_mem (Expr.mem_postorder_iff.mpr ((hwf.soundAt hr.reaches).part_expr hrx))

/-- The first expression that cannot be typed is refused by its rule, which has the given
outcome. -/
theorem exists_first_refusal {tree : Tree} (hwf : tree.WellFormed)
    (h : ofTree table tree = .error halt) (hhalt : halt.OfRule) :
    ∃ before c x node after v,
      tree.program.completions table = before ++ (c, tree.expr x) :: after ∧
      (∀ b ∈ before, ∃ r, Types b.1 b.2 r) ∧ tree.ReachesExpr x ∧ tree.expr? x = some node ∧
      Refuses c tree node v ∧ v.halt node.location node.text = halt := by
  obtain ⟨before, c, x, after, hsplit, hbefore, site, v, hsite, hv, hhalt⟩ :=
    exists_first_violation h hhalt
  have hmem : (c, x) ∈ tree.program.completions table := hsplit ▸ List.mem_append_cons_self
  obtain ⟨x, rfl, hx⟩ := exists_reaches_of_completion hwf hmem
  obtain ⟨node, hnode, -, hsite', -⟩ := (hwf.soundAt hx).exists_node
  cases hsite.symm.trans hsite'
  exact ⟨before, c, x, node, after, v, hsplit, hbefore, hx, hnode,
    (violates_expr_iff (hwf.soundAt hx) hnode).mp hv, hhalt⟩

end TypingTable

/-- The first expression that cannot be typed is a concatenation of strings that are too long
together. -/
def Tree.OverflowsFirst (tree : Tree) (table : SymbolTable) : Prop :=
  ∃ before c x node after y z r s,
    tree.program.completions table = before ++ (c, tree.expr x) :: after ∧
    (∀ b ∈ before, ∃ r, Types b.1 b.2 r) ∧ tree.ReachesExpr x ∧ tree.expr? x = some node ∧
    node.form = .dyadic .cat y z ∧ Types c (tree.expr y) r ∧ Types c (tree.expr z) s ∧
    r.ty.TooLong s.ty

theorem Tree.WellFormed.overflowsFirst {table : SymbolTable} {tree : Tree} (hwf : tree.WellFormed)
    (h : TypingTable.ofTree table tree = .error .lengthOverflow) : tree.OverflowsFirst table := by
  obtain ⟨before, c, x, node, after, v, hsplit, hbefore, hx, hnode, ⟨rs, hrs, hrule⟩, hhalt⟩ :=
    exists_first_refusal hwf h trivial
  obtain rfl := Violation.eq_lengthOverflow hhalt
  obtain ⟨y, z, _, _, r, s, hform, hchildren, hr, hs, hlong⟩ :=
    ExprForm.tooLong_of_operands hrs hrule
  rw [hform] at hchildren
  cases hchildren
  exact ⟨before, c, x, node, after, y, z, r, s, hsplit, hbefore, hx, hnode, hform, hr, hs, hlong⟩

namespace TypingTable

/-- If typing a unit ends with a complaint of the rules, it is put down to a reached expression
whose operands can be typed and whose rule has this complaint about their types, and everything that
is completed before this expression can be typed. Over a table whose chains of scopes end, the
searches outward end, and a unit in which the rule of an expression refuses its operands ends with a
diagnostic, unless the first expression that cannot be typed is a concatenation of strings that are
too long together: then a length overflows. In a unit that can be typed, all that is reached is
completed, and entered in that order. -/
theorem rule_fault_at_first_violation (table : SymbolTable) (tree : Tree) (hwf : tree.WellFormed) :
    (∀ d, ofTree table tree = .error (.reported d) → d.complaint.OfRule →
      ∃ before c x node after v,
        tree.program.completions table = before ++ (c, tree.expr x) :: after ∧
        (∀ b ∈ before, ∃ r, Types b.1 b.2 r) ∧
        tree.ReachesExpr x ∧ tree.expr? x = some node ∧ Refuses c tree node v ∧
        v.halt node.location node.text = .reported d ∧ d.location = node.location ∧
        (d.text = node.text ∨ d.complaint = .notYetImplemented d.text)) ∧
    ((∀ i, ∃ n, table.EndsWithin n i) → (∀ i, table.SearchesEnd i) ∧
      ∀ c x node v, (c, tree.expr x) ∈ tree.program.completions table →
        tree.expr? x = some node → Refuses c tree node v →
        (∃ d, ofTree table tree = .error (.reported d)) ∨
          ofTree table tree = .error .lengthOverflow ∧ tree.OverflowsFirst table) ∧
    ∀ t, ofTree table tree = .ok t →
      (∀ x, tree.ReachesExpr x → ∃ c, (c, tree.expr x) ∈ tree.program.completions table) ∧
      ∃ log, t = (withRoom tree.exprs.size).insertAll log ∧
        log.map Prod.fst = (tree.program.completions table).map fun b => b.2.id := by
  refine ⟨?_, fun hchains => ⟨fun i => ?_, ?_⟩, ?_⟩
  · intro d h hd
    obtain ⟨before, c, x, node, after, v, hsplit, hbefore, hx, hnode, hv, hhalt⟩ :=
      exists_first_refusal hwf h hd
    obtain ⟨hlocation, htext⟩ := Violation.of_halt hhalt
    exact ⟨before, c, x, node, after, v, hsplit, hbefore, hx, hnode, hv, hhalt, hlocation, htext⟩
  · obtain ⟨n, hn⟩ := hchains i
    exact hn.searchesEnd
  · intro c x node v hmem hnode hv
    obtain ⟨z, hz, hreach⟩ := exists_reaches_of_completion hwf hmem
    obtain rfl : x = z := by simpa using congrArg Expr.id hz
    have hviolates := (violates_expr_iff (hwf.soundAt hreach) hnode).mpr hv
    obtain ⟨halt, h⟩ := exists_error_of_violates hmem hviolates
    obtain ⟨e, he, hfails⟩ := ofProgram_eq_error h
    cases halt with
    | reported d => exact .inl ⟨d, h⟩
    | lengthOverflow => exact .inr ⟨h, hwf.overflowsFirst h⟩
    | danglingReference =>
      exact (Errand.typed_ne_dangling (hwf.whole_of_mem_agenda table e he) hfails).elim
  · intro t h
    obtain ⟨htyped, rfl⟩ := ofProgram_eq_ok_iff.mp h
    refine ⟨fun x => exists_completion_of_reaches hwf htyped, _, rfl, ?_⟩
    rw [Program.completions, List.map_flatMap, List.map_flatMap]
    apply List.flatMap_congr
    intro e he
    exact Errand.map_fst_log (htyped e he)

end TypingTable

/-! ## Units with two violations

A task evaluates -3, the sum of -3 and a string, and the text of a number. Only the sum is
complained about. In front of another sum of a number and a string, there is a variable that has as
many characters as a length can count, and one character more.
-/

namespace Sample

open SymbolTable (Step)

/-- A task, and a variable that has as many characters as a length can count. -/
def longHistory : List Step :=
  [.module "m", .variable ⟨1⟩ "x" (.char 4294967295) false, .task ⟨1⟩ "t" true false]

theorem endsWithin_longHistory (i : ScopeId) :
    ∃ n, ((SymbolTable.new {}).run longHistory).EndsWithin n i := by
  have hthere : SymbolTable.ScopesThere {} longHistory := by decide
  exact ⟨_, hthere.endsWithin i⟩

def mixedTree : Tree where
  modules := [⟨"m", [.task "t" none [⟨0⟩, ⟨1⟩, ⟨2⟩] .unknown], .unknown⟩]
  exprs := #[⟨.literal (.fixed "3" none), .unknown, "3"⟩, ⟨.monadic .minus ⟨0⟩, .unknown, "-3"⟩,
    ⟨.literal (.string "a"), .point 2 6, "'a'"⟩, ⟨.dyadic .add ⟨1⟩ ⟨2⟩, .point 2 1, "-3 + 'a'"⟩,
    ⟨.monadic .toChar ⟨0⟩, .point 3 1, "TOCHAR 3"⟩]
  stmts := #[⟨.eval ⟨1⟩, .unknown⟩, ⟨.eval ⟨3⟩, .unknown⟩, ⟨.eval ⟨4⟩, .unknown⟩]

theorem refersBack_mixedTree : mixedTree.RefersBack := by decide

def overlongTree : Tree where
  modules := [⟨"m", [.task "t" none [⟨0⟩, ⟨1⟩] .unknown], .unknown⟩]
  exprs := #[⟨.name "x", .unknown, "x"⟩, ⟨.literal (.string "a"), .unknown, "'a'"⟩,
    ⟨.dyadic .cat ⟨0⟩ ⟨1⟩, .unknown, "x CAT 'a'"⟩, ⟨.literal (.fixed "1" none), .unknown, "1"⟩,
    ⟨.literal (.string "b"), .unknown, "'b'"⟩, ⟨.dyadic .add ⟨3⟩ ⟨4⟩, .unknown, "1 + 'b'"⟩]
  stmts := #[⟨.eval ⟨2⟩, .unknown⟩, ⟨.eval ⟨5⟩, .unknown⟩]

theorem refersBack_overlongTree : overlongTree.RefersBack := by decide

end Sample

theorem TypingTable.rule_fault_at_first_violation_mixed :
    let table := (SymbolTable.new {}).run Sample.longHistory
    (∀ i, ∃ n, table.EndsWithin n i) ∧ Sample.mixedTree.WellFormed ∧
      ofTree table Sample.mixedTree =
        .error (.reported ⟨.illegalExpression, .point 2 1, "-3 + 'a'"⟩) ∧
      (∀ i, table.SearchesEnd i) ∧ ∃ before c x node after v,
        Sample.mixedTree.program.completions table =
          before ++ (c, Sample.mixedTree.expr x) :: after ∧
        (∀ b ∈ before, ∃ r, Types b.1 b.2 r) ∧ Sample.mixedTree.expr? x = some node ∧
        Refuses c Sample.mixedTree node v ∧ node.location = .point 2 1 ∧
        node.text = "-3 + 'a'" := by
  intro table
  have hwf := Sample.refersBack_mixedTree.wellFormed
  have hfault : ofTree table Sample.mixedTree =
      .error (.reported ⟨.illegalExpression, .point 2 1, "-3 + 'a'"⟩) := by
    decide
  obtain ⟨hfirst, hends, -⟩ := rule_fault_at_first_violation table Sample.mixedTree hwf
  obtain ⟨before, c, x, node, after, v, hsplit, hbefore, -, hnode, hv, -, hlocation, htext⟩ :=
    hfirst _ hfault trivial
  have htext : node.text = "-3 + 'a'" := by
    rcases htext with htext | htext
    · exact htext.symm
    · cases htext
  exact ⟨Sample.endsWithin_longHistory, hwf, hfault, (hends Sample.endsWithin_longHistory).1,
    before, c, x, node, after, v, hsplit, hbefore, hnode, hv, hlocation.symm, htext⟩

/-- The rule for the sum refuses its operands, and no diagnostic is reported. -/
theorem TypingTable.violation_after_overflow :
    let table := (SymbolTable.new {}).run Sample.longHistory
    (∀ i, ∃ n, table.EndsWithin n i) ∧ Sample.overlongTree.WellFormed ∧
      (∃ c node, (c, Sample.overlongTree.expr ⟨5⟩) ∈ Sample.overlongTree.program.completions table ∧
        Sample.overlongTree.expr? ⟨5⟩ = some node ∧
        Refuses c Sample.overlongTree node .illegalExpression) ∧
      ofTree table Sample.overlongTree = .error .lengthOverflow := by
  intro table
  let c : Context := (Context.new table).inside ⟨2⟩
  have hmem :
      (c, Sample.overlongTree.expr ⟨5⟩) ∈ Sample.overlongTree.program.completions table := by
    refine List.mem_flatMap.mpr ⟨.visit ⟨2⟩ .plain (Sample.overlongTree.expr ⟨5⟩), ?_, ?_⟩
    · exact List.mem_of_getElem? (i := 3) rfl
    · exact List.mem_map_of_mem (Expr.mem_postorder_iff.mpr .refl)
  have hrefuses : Refuses c Sample.overlongTree ⟨.dyadic .add ⟨3⟩ ⟨4⟩, .unknown, "1 + 'b'"⟩
      .illegalExpression := by
    refine ⟨[.ofConstant (.fixed 31), .ofConstant (.char 1)], ?_, rfl⟩
    exact .cons (types_iff.mpr rfl) (.cons (types_iff.mpr rfl) .nil)
  refine ⟨Sample.endsWithin_longHistory, Sample.refersBack_overlongTree.wellFormed,
    ⟨c, _, hmem, rfl, hrefuses⟩, ?_⟩
  exact map_eq_error.mp (show (ofTree table Sample.overlongTree).map (fun _ => ()) = _ by decide)

end Pearl
