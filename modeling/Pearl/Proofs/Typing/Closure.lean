import Pearl.Proofs.Tree.Reach
import Pearl.Proofs.Typing.Entries

/-! # A table of types is closed under the rules

What the finished table holds of an expression is what the rule of its form gives for what the table
holds of the operands. An operator is typed from what was entered before it, and where no id is met
twice nothing of that is replaced later.
-/

namespace Pearl

open Relation

/-- What was entered for an expression of the given form is what its rule gives for what was entered
for its operands. Only literals and names depend on where they stand. -/
def ExprForm.Justified (entered : ExprId → Typing → Prop) (defaults : LanguageDefaults)
    (id : ExprId) : ExprForm → Prop
  | .literal _ => ∃ ty, entered id (.ofConstant ty)
  | .name _ => ∃ r, entered id r
  | .monadic op x =>
    ∃ r ty, entered x r ∧ op.result r.ty = .ok ty ∧ entered id ⟨ty, r.constant, none⟩
  | .dyadic op x y => ∃ r s ty, entered x r ∧ entered y s ∧
      op.result defaults.durationRatioPrecision r.ty s.ty = .ok ty ∧
        entered id ⟨ty, r.constant && s.constant, none⟩
  | .paren x => ∃ r, entered x r ∧ entered id r
  | .attempt semaphores => semaphores ≠ [] ∧ entered id (.runtime (.bit 1))
  | .now => entered id (.runtime .clock)
  | .sizeOf _ => entered id (.runtime (.fixed defaults.fixedLength))
  | .taskOf _ => entered id (.runtime .task)
  | .cont x => ∃ r target, entered x r ∧ r.ty = .reference target ∧ entered id (.runtime target)
  | .slice kind x y =>
    (∃ r, entered x r) ∧ (∃ s, entered y s) ∧ entered id (.runtime (match kind with
      | .bit => .bit 1
      | .char => .char 1))

theorem ExprForm.Justified.mono {entered entered' : ExprId → Typing → Prop}
    {defaults : LanguageDefaults} {id : ExprId} {form : ExprForm}
    (hentered : ∀ id r, entered id r → entered' id r) (h : form.Justified entered defaults id) :
    form.Justified entered' defaults id := by
  cases form with
  | literal value => exact h.imp fun ty => hentered id _
  | name ident => exact h.imp fun r => hentered id r
  | now | sizeOf | taskOf => exact hentered id _ h
  | attempt => exact ⟨h.1, hentered id _ h.2⟩
  | monadic op x =>
    obtain ⟨r, ty, hx, hty, hid⟩ := h
    exact ⟨r, ty, hentered x r hx, hty, hentered id _ hid⟩
  | dyadic op x y =>
    obtain ⟨r, s, ty, hx, hy, hty, hid⟩ := h
    exact ⟨r, s, ty, hentered x r hx, hentered y s hy, hty, hentered id _ hid⟩
  | paren x =>
    obtain ⟨r, hx, hid⟩ := h
    exact ⟨r, hentered x r hx, hentered id r hid⟩
  | cont x =>
    obtain ⟨r, target, hx, hty, hid⟩ := h
    exact ⟨r, target, hentered x r hx, hty, hentered id _ hid⟩
  | slice kind x y =>
    obtain ⟨hx, hy, hid⟩ := h
    exact ⟨hx.imp fun r => hentered x r, hy.imp fun s => hentered y s, hentered id _ hid⟩

namespace Judgement

/-- The typing is among what is entered for the expression. -/
def Enters (j : Judgement) (id : ExprId) (r : Typing) : Prop := (id, r) ∈ j.log

variable {j j' : Judgement} {id : ExprId} {r s : Typing}

theorem EndsAt.enters (h : j.EndsAt id) (hr : j.outcome = .ok r) : j.Enters id r :=
  List.mem_of_getLast? (h r hr)

theorem log_subset_andThen {k : Typing → Judgement} (h : j.outcome = .ok s) :
    j.log ⊆ (j.andThen k).log := by
  unfold andThen
  rw [h]
  exact List.subset_append_left ..

/-- The judgements of two operands are good if the whole is, and their entries are among its own. -/
theorem ok_of_andThen₂ {k : Typing → Typing → Judgement}
    (h : (j.andThen fun s => j'.andThen (k s)).outcome = .ok r) :
    ∃ s s', j.outcome = .ok s ∧ j'.outcome = .ok s' ∧ (k s s').outcome = .ok r ∧
      j.log ⊆ (j.andThen fun s => j'.andThen (k s)).log ∧
      j'.log ⊆ (j.andThen fun s => j'.andThen (k s)).log := by
  obtain ⟨s, hs, h, hlog⟩ := ok_of_andThen h
  obtain ⟨s', hs', h, -⟩ := ok_of_andThen h
  refine ⟨s, s', hs, hs', h, log_subset_andThen hs, ?_⟩
  rw [hlog]
  exact List.subset_append_of_subset_right _ (log_subset_andThen hs')

end Judgement

namespace TypingTable

open Judgement

variable {c : Context} {r : Typing}

theorem fixed_of_judgeBound {site : ExprSite} {op : Monadic} {x : Expr} {ty : Ty}
    (h : judgeBound c site op x = .ok (some ty)) : op = .minus ∧ ∃ g, ty = .fixed g := by
  unfold judgeBound at h
  split at h
  · rename_i hop
    refine ⟨hop.1, ?_⟩
    split at h
    · split at h
      · cases h
        exact ⟨_, rfl⟩
      · cases h
      · cases h
    · cases h
  · cases h

theorem judgeRule_eq_ok {site : ExprSite} {v : Except Violation Ty} {ty : Ty}
    (h : judgeRule site v = .ok ty) : v = .ok ty := by
  cases v with
  | error e => cases h
  | ok s =>
    cases h
    rfl

/-- An operand of an expression that can be typed is typed before it, unless it is a number in a
loop bound that is entered together with its sign. -/
theorem judge_operand {x y : Expr} (h : (judge c x).outcome = .ok r) (hy : y ∈ x.operands) :
    (∃ s, (judge c y).outcome = .ok s ∧ (judge c y).log ⊆ (judge c x).log) ∨
      ∃ site value ty, y = .literal site value ∧ (judge c x).Enters site.id (.ofConstant ty) := by
  cases x with
  | dangling | literal | name | attempt | now | sizeOf | taskOf => cases hy
  | monadic site op x =>
    rw [List.mem_singleton.mp hy]
    rcases judge_monadic_cases h with ⟨inner, value, ty, hx, -, hj⟩ | ⟨s, ty, -, hs, -, -, hlog⟩
    · refine .inr ⟨inner, value, ty, hx, ?_⟩
      rw [hj]
      exact List.mem_cons_self ..
    · refine .inl ⟨s, hs, ?_⟩
      rw [hlog]
      exact List.subset_append_left ..
  | paren site x | cont site x =>
    rw [List.mem_singleton.mp hy]
    obtain ⟨s, hs, -⟩ := ok_of_andThen h
    exact .inl ⟨s, hs, log_subset_andThen hs⟩
  | dyadic site op x y | slice site kind x y =>
    obtain ⟨s, s', hs, hs', -, hx, hy'⟩ := ok_of_andThen₂ h
    rcases List.mem_pair.mp hy with rfl | rfl
    · exact .inl ⟨s, hs, hx⟩
    · exact .inl ⟨s', hs', hy'⟩

/-- What an operand was typed as is entered. -/
theorem enters_operand {j : Judgement} {y : Expr} {s : Typing} (hs : (judge c y).outcome = .ok s)
    (hsub : (judge c y).log ⊆ j.log) : j.Enters y.id s :=
  hsub ((endsAt_judge c y).enters hs)

/-- The rule of an expression that can be typed holds among what is entered. A sign and a number
that are entered at once have one width, as the rule of the sign says. -/
theorem justified_of_judge {x : Expr} (h : (judge c x).outcome = .ok r) {form : ExprForm}
    (hform : x.form? = some form) : form.Justified (judge c x).Enters c.table.defaults x.id := by
  have hself : (judge c x).Enters x.id r := (endsAt_judge c x).enters h
  cases x with
  | dangling => cases h
  | literal site value =>
    cases hform
    obtain ⟨k, -, rfl⟩ := map_eq_ok.mp (ok_of_conclude h).1
    exact ⟨_, hself⟩
  | name site ident =>
    cases hform
    exact ⟨r, hself⟩
  | now | sizeOf | taskOf =>
    cases hform
    cases h
    exact hself
  | attempt site semaphores =>
    cases hform
    have hrun := (ok_of_conclude h).1
    split at hrun
    · cases hrun
    · rename_i hsome
      cases hrun
      exact ⟨fun hnil => hsome (hnil ▸ rfl), hself⟩
  | monadic site op x =>
    cases hform
    rcases judge_monadic_cases h with ⟨inner, value, ty, hx, hbound, hj⟩ |
      ⟨s, ty, -, hs, hty, rfl, hlog⟩
    · obtain ⟨rfl, g, rfl⟩ := fixed_of_judgeBound hbound
      rw [hx, hj]
      exact ⟨.ofConstant (.fixed g), .fixed g, List.mem_cons_self .., rfl,
        List.mem_cons_of_mem _ (List.mem_singleton_self _)⟩
    · exact ⟨s, ty, enters_operand hs (hlog.symm ▸ List.subset_append_left ..), hty, hself⟩
  | paren site x =>
    cases hform
    obtain ⟨s, hs, h, -⟩ := ok_of_andThen h
    cases h
    exact ⟨r, enters_operand hs (log_subset_andThen hs), hself⟩
  | cont site x =>
    cases hform
    obtain ⟨s, hs, h, -⟩ := ok_of_andThen h
    have hrule := (ok_of_conclude h).1
    split at hrule
    · rename_i target hty
      cases hrule
      exact ⟨s, target, enters_operand hs (log_subset_andThen hs), hty, hself⟩
    · cases hrule
  | dyadic site op x y =>
    cases hform
    obtain ⟨s, s', hs, hs', h, hx, hy⟩ := ok_of_andThen₂ h
    obtain ⟨ty, hty, rfl⟩ := map_eq_ok.mp (ok_of_conclude h).1
    exact ⟨s, s', ty, enters_operand hs hx, enters_operand hs' hy, judgeRule_eq_ok hty, hself⟩
  | slice site kind x y =>
    cases hform
    obtain ⟨s, s', hs, hs', h, hx, hy⟩ := ok_of_andThen₂ h
    cases h
    exact ⟨⟨s, enters_operand hs hx⟩, ⟨s', enters_operand hs' hy⟩, hself⟩

/-- So do the rules of all its parts. -/
theorem justified_of_part {x y : Expr} (h : (judge c x).outcome = .ok r) (hy : x.Part y)
    {form : ExprForm} (hform : y.form? = some form) :
    form.Justified (judge c x).Enters c.table.defaults y.id := by
  induction hy using ReflTransGen.head_induction_on generalizing r with
  | refl => exact justified_of_judge h hform
  | head hz hzy ih =>
    rcases judge_operand h hz with ⟨s, hs, hsub⟩ | ⟨site, value, ty, rfl, hentered⟩
    · exact (ih hs).mono fun id r hr => hsub hr
    · rcases hzy.cases_head with rfl | ⟨z, hz', -⟩
      · cases hform
        exact ⟨ty, hentered⟩
      · cases hz'

/-- In the table of a well-formed tree that meets no id twice, the rule of every expression that can
be reached holds among the entries. -/
theorem justified_of_reaches (table : SymbolTable) (tree : Tree) (t : TypingTable)
    (hwf : tree.WellFormed) (hids : tree.program.exprIds.Nodup) (h : ofTree table tree = .ok t) :
    ∀ x node, tree.ReachesExpr x → tree.expr? x = some node →
      node.form.Justified (fun id r => t.get? id = some r) table.defaults x := by
  intro x node hx hnode
  have htyped := (ofProgram_eq_ok_iff.mp h).1
  obtain ⟨top, htop, n, hpart⟩ := hwf.exists_part_of_reaches hx
  rw [← tree.program.visits_agenda fun e he => Errand.passed_of_typed (htyped e he)] at htop
  obtain ⟨e, he, hexpr⟩ := List.mem_filterMap.mp htop
  cases e with
  | resolve | missing => cases hexpr
  | visit scope place y =>
    cases hexpr
    obtain ⟨c, r, hframe, hj, hlog⟩ := Errand.judge_of_typed (htyped _ he)
    have htable : c.table = table := congrArg Cursor.table (cursor_of_frame hframe)
    have hrule := justified_of_part hj hpart (Tree.form?_unfoldExpr hnode n)
    rw [htable, Tree.id_unfoldExpr] at hrule
    refine hrule.mono fun id s hs => get?_of_mem_log h hids he ?_
    rw [hlog]
    exact hs

/-- In the sample unit, the sign of the bound -3 has the type that its rule gives for the number,
though both were entered at once. -/
theorem justified_of_reaches_sample : Sample.tree.WellFormed ∧ Sample.tree.program.exprIds.Nodup ∧
    Sample.tree.ReachesExpr ⟨3⟩ ∧ ∃ t, ofTree Sample.table Sample.tree = .ok t ∧
      ∃ r ty, t.get? ⟨2⟩ = some r ∧ Monadic.minus.result r.ty = .ok ty ∧
        t.get? ⟨3⟩ = some ⟨ty, r.constant, none⟩ := by
  have hwf := Sample.refersBack_tree.wellFormed
  have hids : Sample.tree.program.exprIds.Nodup := by decide +kernel
  obtain ⟨t, ht⟩ : ∃ t, ofTree Sample.table Sample.tree = .ok t :=
    exists_eq_ok_of_toBool (by decide +kernel)
  have hloop : Sample.tree.ReachesStmt ⟨2⟩ :=
    ⟨.task "t" none [⟨2⟩] .unknown, by decide, ⟨2⟩, by decide, .refl⟩
  have hbound : Sample.tree.ReachesExpr ⟨3⟩ := ⟨⟨3⟩, .inr ⟨⟨2⟩, _, hloop, rfl, by decide⟩, .refl⟩
  refine ⟨hwf, hids, hbound, t, ht, ?_⟩
  exact justified_of_reaches Sample.table Sample.tree t hwf hids ht ⟨3⟩ _ hbound rfl

end TypingTable

end Pearl
