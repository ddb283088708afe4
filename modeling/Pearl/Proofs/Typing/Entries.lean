import Pearl.Analysis
import Pearl.Proofs.Tree.Reach
import Pearl.Proofs.Typing.Judgement

/-! # The entries of a table of types

The table of a program has the entries of its expressions, each judged in the frame of its place. In
a program that can be typed nothing dangles and all that has to be found is found, and there is one
entry for each id that a traversal meets. Where no id is met twice, none of them is replaced.
-/

namespace Pearl

open Walk

namespace TypingTable

/-! ## Expressions at their places -/

/-- The context that a place makes of the one around it. -/
def frame (c : Context) : ExprPlace → Except Diagnostic Context
  | .plain | .clause .condition => .ok c
  | .clause .first | .clause .step | .clause .last => .ok { c with inBound := true }
  | .assigned location target => match c.table.visibleVariable? c.scope target with
    | some ty => .ok { c with assigned := assignedLength ty }
    | none => .error ⟨.unknownIdentifier, location, target⟩
  | .initial ty => .ok { c with initial := some (c.initializerPrecisionsOf ty) }

/-- A place does not lead to another scope. -/
theorem cursor_of_frame {c c' : Context} {place : ExprPlace} (h : frame c place = .ok c') :
    c'.cursor = c.cursor := by
  cases place with
  | plain | initial =>
    cases h
    rfl
  | clause clause => cases clause <;> cases h <;> rfl
  | assigned location target =>
    simp only [frame] at h
    split at h
    · cases h
      rfl
    · cases h

theorem complaint_of_frame {c : Context} {place : ExprPlace} {d : Diagnostic}
    (h : frame c place = .error d) : d.complaint = .unknownIdentifier := by
  cases place with
  | plain | initial => cases h
  | clause clause => cases clause <;> cases h
  | assigned location target =>
    simp only [frame] at h
    split at h
    · cases h
    · cases h
      rfl

def judgeAt (c : Context) (place : ExprPlace) (x : Expr) : Judgement :=
  match frame c place with
  | .ok c => judge c x
  | .error d => .fail (.reported d)

/-- A judgement depends on the current scope, not on the scopes it was entered through. -/
theorem judge_inside (c : Context) (x : Expr) : judge (c.inside c.scope) x = judge c x := by
  induction x with
  | dangling | literal | name | attempt | now | sizeOf | taskOf => rfl
  | monadic site op x ih =>
    simp only [judge, ih]
    rfl
  | dyadic site op x y ihx ihy =>
    simp only [judge, ihx, ihy]
    rfl
  | slice site kind x y ihx ihy => simp only [judge, ihx, ihy]
  | paren site x ih | cont site x ih => simp only [judge, ih]

theorem judgeAt_inside (c : Context) (place : ExprPlace) (x : Expr) :
    judgeAt (c.inside c.scope) place x = judgeAt c place x := by
  cases place with
  | plain => exact judge_inside c x
  | clause clause =>
    cases clause with
    | condition => exact judge_inside c x
    | first | step | last => exact judge_inside { c with inBound := true } x
  | assigned location target =>
    have hvar : (c.inside c.scope).table.visibleVariable? (c.inside c.scope).scope target =
        c.table.visibleVariable? c.scope target := rfl
    simp only [judgeAt, frame, hvar]
    cases c.table.visibleVariable? c.scope target with
    | none => rfl
    | some ty => exact judge_inside { c with assigned := assignedLength ty } x
  | initial ty => exact judge_inside { c with initial := some (c.initializerPrecisionsOf ty) } x

theorem Judges.bracket {c : Context} {act : Infer Unit} {j : Judgement} {change : Context → Context}
    {restore : Context → Context → Context} (hrestore : restore c (change c) = c)
    (h : Judges (change c) act j) : Judges c (bracket change restore act) j := by
  intro t
  rw [runFrom_bracket, h t, hrestore]

theorem judges_inferAssignment (c : Context) (location : Location) (target : String) (x : Expr) :
    Judges c (inferAssignment location target (infer x))
      (judgeAt c (.assigned location target) x) := by
  have hlookup : ((Context.new c.table).inside c.scope).lookup? target = c.lookup? target := rfl
  intro t
  simp only [inferAssignment, judgeAt, frame, SymbolTable.visibleVariable?, hlookup, runFrom_bind,
    runFrom_context]
  generalize (c.lookup? target).map Symbol.kind = kind
  rcases kind with _ | ⟨scope⟩ | ⟨scope, result⟩ | ⟨scope, isMain, isGlobal⟩ | ⟨ty, inv⟩ | _
  · rfl
  · rfl
  · rfl
  · rfl
  · exact Judges.bracket rfl (judges_infer x) t
  · rfl

theorem judges_visit (c : Context) (x : Expr) (place : ExprPlace) :
    Judges c (inferring.visit x place) (judgeAt c place x) := by
  cases place with
  | plain => exact judges_infer x
  | clause clause =>
    cases clause with
    | condition => exact judges_infer x
    | first | step | last =>
      change Judges c (bounding true (infer x)) (judge { c with inBound := true } x)
      exact Judges.bracket rfl (judges_infer x)
  | assigned location target => exact judges_inferAssignment c location target x
  | initial ty =>
    intro t
    simp only [Pass.visit, runFrom_bind, runFrom_context]
    exact Judges.bracket rfl (judges_infer x) t

theorem steady_inferring : inferring.Steady := by
  intro x place c t
  rw [judges_visit c x place t, judges_visit (c.inside c.scope) x place t, judgeAt_inside]

/-! ## What a good judgement tells -/

section Good

variable {c : Context} {r : Typing}

/-- Only a number is judged together with its sign. -/
theorem exists_literal_of_judgeBound {site : ExprSite} {op : Monadic} {x : Expr}
    {bound : Except Halt (Option Ty)} (h : judgeBound c site op x = bound)
    (hbound : bound ≠ .ok none) : ∃ inner value, x = .literal inner value := by
  cases x with
  | literal inner value => exact ⟨inner, value, rfl⟩
  | _ => exact (hbound (h.symm.trans (ite_self _))).elim

/-- A judgement of an operator is that of a number with its sign, or goes by the operand. -/
theorem judge_monadic_cases {site : ExprSite} {op : Monadic} {x : Unit → Expr}
    (h : (judge c (.monadic site op x)).outcome = .ok r) :
    (∃ inner value ty, x () = .literal inner value ∧
      judgeBound c site op (x ()) = .ok (some ty) ∧ judge c (.monadic site op x) =
        ⟨[(inner.id, .ofConstant ty), (site.id, .ofConstant ty)], .ok (.ofConstant ty)⟩) ∨
    ∃ s ty, judgeBound c site op (x ()) = .ok none ∧ (judge c (x ())).outcome = .ok s ∧
      op.result s.ty = .ok ty ∧ r = ⟨ty, s.constant, none⟩ ∧
      (judge c (.monadic site op x)).log = (judge c (x ())).log ++ [(site.id, r)] := by
  cases hbound : judgeBound c site op (x ()) with
  | error halt =>
    simp only [judge, hbound] at h
    cases h
  | ok bound =>
    cases bound with
    | some ty =>
      obtain ⟨inner, value, hx⟩ := exists_literal_of_judgeBound hbound (by simp)
      refine .inl ⟨inner, value, ty, hx, rfl, ?_⟩
      simp only [judge, hbound]
      rw [hx]
      rfl
    | none =>
      simp only [judge, hbound] at h
      obtain ⟨s, hs, hrule, hlog⟩ := Judgement.ok_of_andThen h
      obtain ⟨hrule, hlast⟩ := Judgement.ok_of_conclude hrule
      cases hty : op.result s.ty with
      | error v =>
        rw [hty] at hrule
        cases hrule
      | ok ty =>
        rw [hty] at hrule
        refine .inr ⟨s, ty, rfl, hs, hty, (Except.ok.inj hrule).symm, ?_⟩
        simp only [judge, hbound]
        rw [hlog, hlast]

/-- What can be typed is whole. -/
theorem whole_of_judge {x : Expr} (h : (judge c x).outcome = .ok r) : x.Whole := by
  induction x generalizing r with
  | dangling => cases h
  | literal | name | attempt | now | sizeOf | taskOf => exact trivial
  | monadic site op x ih =>
    rcases judge_monadic_cases h with ⟨inner, value, ty, hx, -, -⟩ | ⟨s, ty, -, hs, -, -, -⟩
    · rw [Expr.Whole, hx]
      exact trivial
    · exact ih () hs
  | paren _ x ih | cont _ x ih =>
    obtain ⟨s, hs, -⟩ := Judgement.ok_of_andThen h
    exact ih () hs
  | dyadic _ _ x y ihx ihy | slice _ _ x y ihx ihy =>
    obtain ⟨s, hs, h, -⟩ := Judgement.ok_of_andThen h
    obtain ⟨s', hs', -⟩ := Judgement.ok_of_andThen h
    exact ⟨ihx () hs, ihy () hs'⟩

/-- The entries of an expression that can be typed are made in the order in which parts are
completed. -/
theorem map_fst_log_of_judge {x : Expr} (h : (judge c x).outcome = .ok r) :
    (judge c x).log.map Prod.fst = x.postorder.map Expr.id := by
  induction x generalizing r with
  | dangling => cases h
  | literal | name | attempt | now | sizeOf | taskOf =>
    exact congrArg _ (Judgement.ok_of_conclude h).2
  | monadic site op x ih =>
    rcases judge_monadic_cases h with ⟨inner, value, ty, hx, -, hj⟩ | ⟨s, ty, -, hs, -, -, hlog⟩
    · rw [hj, Expr.postorder, hx]
      rfl
    · rw [hlog, List.map_append, ih () hs, Expr.postorder, List.map_append]
      rfl
  | paren site x ih | cont site x ih =>
    obtain ⟨s, hs, h, hlog⟩ := Judgement.ok_of_andThen h
    refine (congrArg _ hlog).trans ?_
    rw [(Judgement.ok_of_conclude h).2, List.map_append, ih () hs, Expr.postorder, List.map_append]
    rfl
  | dyadic site _ x y ihx ihy | slice site _ x y ihx ihy =>
    obtain ⟨s, hs, h, hlog⟩ := Judgement.ok_of_andThen h
    obtain ⟨s', hs', h, hlog'⟩ := Judgement.ok_of_andThen h
    refine (congrArg _ hlog).trans ?_
    rw [hlog', (Judgement.ok_of_conclude h).2, List.map_append, List.map_append, ihx () hs,
      ihy () hs', Expr.postorder, List.map_append, List.map_append, List.append_assoc]
    rfl

/-- An expression that can be typed has one entry for each id met in it. -/
theorem ids_perm_of_judge {x : Expr} (h : (judge c x).outcome = .ok r) :
    ((judge c x).log.map Prod.fst).Perm x.ids := by
  rw [map_fst_log_of_judge h]
  exact x.postorder_perm_ids

end Good

end TypingTable

/-! ## Programs -/

namespace Errand

open TypingTable

variable {table : SymbolTable} {e : Errand}

/-- The outcome of an errand when types are inferred. -/
def typed (table : SymbolTable) : Errand → Except Halt Unit
  | .resolve r => (r.outcome table).mapError .reported
  | .visit scope place x =>
    (judgeAt ((Context.new table).inside scope) place x).outcome.map fun _ => ()
  | .missing => .error .danglingReference

/-- What an errand enters when types are inferred. -/
def log (table : SymbolTable) : Errand → List (ExprId × Typing)
  | .visit scope place x => (judgeAt ((Context.new table).inside scope) place x).log
  | .resolve _ | .missing => []

theorem perform_inferring (table : SymbolTable) (e : Errand) (t : TypingTable) :
    inferring.perform (.new table) e t = (e.typed table, t.insertAll (e.log table)) := by
  cases e with
  | resolve | missing => rfl
  | visit scope place x =>
    rw [Pass.perform, judges_visit]
    rfl

/-- A visit that can be typed has a frame in which the expression is judged. -/
theorem judge_of_typed {scope : ScopeId} {place : ExprPlace} {x : Expr}
    (h : (visit scope place x).typed table = .ok ()) :
    ∃ c r, frame ((Context.new table).inside scope) place = .ok c ∧ (judge c x).outcome = .ok r ∧
      (visit scope place x).log table = (judge c x).log := by
  simp only [typed, log, judgeAt] at h ⊢
  cases hframe : frame ((Context.new table).inside scope) place with
  | error d =>
    rw [hframe] at h
    cases h
  | ok c =>
    rw [hframe] at h
    cases hj : (judge c x).outcome with
    | error halt =>
      rw [hj] at h
      cases h
    | ok r => exact ⟨c, r, rfl, hj, rfl⟩

/-- A resolution fails because something is not found. -/
theorem outcome_of_typed {r : Resolution} {halt : Halt}
    (h : (resolve r).typed table = .error halt) :
    ∃ d, r.outcome table = .error d ∧ halt = .reported d := by
  cases hr : r.outcome table with
  | ok u =>
    rw [typed, hr] at h
    cases h
  | error d =>
    rw [typed, hr] at h
    cases h
    exact ⟨d, rfl, rfl⟩

/-- A visit fails because the place has no frame, or in the frame as the judgement does. -/
theorem fault_of_typed {scope : ScopeId} {place : ExprPlace} {x : Expr} {halt : Halt}
    (h : (visit scope place x).typed table = .error halt) :
    (∃ d, frame ((Context.new table).inside scope) place = .error d ∧ halt = .reported d) ∨
      ∃ c, frame ((Context.new table).inside scope) place = .ok c ∧
        (judge c x).outcome = .error halt := by
  have hjudge := map_eq_error.mp h
  unfold judgeAt at hjudge
  cases hframe : frame ((Context.new table).inside scope) place with
  | error d =>
    rw [hframe] at hjudge
    cases hjudge
    exact .inl ⟨d, rfl, rfl⟩
  | ok c =>
    rw [hframe] at hjudge
    exact .inr ⟨c, rfl, hjudge⟩

theorem whole_of_typed (h : e.typed table = .ok ()) : e.Whole := by
  cases e with
  | resolve => exact trivial
  | missing => cases h
  | visit scope place x =>
    obtain ⟨c, r, -, hj, -⟩ := judge_of_typed h
    exact whole_of_judge hj

theorem passed_of_typed (h : e.typed table = .ok ()) : e.Passed table := by
  cases e with
  | visit => exact trivial
  | missing => cases h
  | resolve r =>
    cases hr : r.outcome table with
    | error d => simp [typed, hr, Except.mapError] at h
    | ok u => exact hr

theorem log_perm_ids (h : e.typed table = .ok ()) :
    ((e.log table).map Prod.fst).Perm (e.expr?.toList.flatMap Expr.ids) := by
  cases e with
  | resolve => exact .nil
  | missing => cases h
  | visit scope place x =>
    obtain ⟨c, r, -, hj, hlog⟩ := judge_of_typed h
    rw [hlog, expr?, Option.toList_some, List.flatMap_singleton]
    exact ids_perm_of_judge hj

end Errand

namespace TypingTable

variable {table : SymbolTable} {p : Program} {n : Nat} {t : TypingTable}

/-- A program can be typed if all its errands can, and then has their entries. -/
theorem ofProgram_eq_ok_iff : ofProgram table n p = .ok t ↔
    (∀ e ∈ p.agenda table, e.typed table = .ok ()) ∧
      (withRoom n).insertAll ((p.agenda table).flatMap (Errand.log table)) = t := by
  unfold ofProgram
  rw [Pass.run_eq_inTurn steady_inferring, map_store_eq_ok, inTurn_eq_ok_iff (Errand.typed table)
    (fun e t => t.insertAll (e.log table)) (fun e _ t => by rw [Errand.perform_inferring])
    fun e _ t _ => by rw [Errand.perform_inferring]]
  unfold insertAll
  rw [List.foldl_flatMap]

/-- A program that cannot be typed fails as the first of its errands that fails. -/
theorem ofProgram_eq_error_iff {halt : Halt} : ofProgram table n p = .error halt ↔
    ∃ before e after, p.agenda table = before ++ e :: after ∧
      (∀ b ∈ before, b.typed table = .ok ()) ∧ e.typed table = .error halt := by
  unfold ofProgram
  rw [Pass.run_eq_inTurn steady_inferring, map_eq_error, inTurn_eq_error_iff (Errand.typed table)
    fun e _ t => by rw [Errand.perform_inferring]]

theorem ofProgram_eq_error {halt : Halt} (h : ofProgram table n p = .error halt) :
    ∃ e ∈ p.agenda table, e.typed table = .error halt := by
  obtain ⟨before, e, after, hsplit, -, he⟩ := ofProgram_eq_error_iff.mp h
  exact ⟨e, hsplit ▸ List.mem_append_cons_self, he⟩

theorem log_perm_exprIds (h : ∀ e ∈ p.agenda table, e.typed table = .ok ()) :
    (((p.agenda table).flatMap (Errand.log table)).map Prod.fst).Perm p.exprIds := by
  rw [Program.exprIds, ← p.visits_agenda fun e he => Errand.passed_of_typed (h e he),
    List.filterMap_eq_flatMap_toList, List.flatMap_assoc, List.map_flatMap]
  exact List.Perm.flatMap_left _ fun e he => Errand.log_perm_ids (h e he)

theorem get?_insertAll_of_notMem {log : List (ExprId × Typing)} {id : ExprId}
    (h : id ∉ log.map Prod.fst) (t : TypingTable) : (t.insertAll log).get? id = t.get? id := by
  induction log generalizing t with
  | nil => rfl
  | cons e log ih =>
    rw [List.map_cons, List.mem_cons, not_or] at h
    exact (ih h.2 (t.insert e.1 e.2)).trans (get?_insert_of_ne t e.2 h.1)

/-- Where no id is entered twice, the table says what was entered. -/
theorem get?_insertAll_of_mem {log : List (ExprId × Typing)} (hnodup : (log.map Prod.fst).Nodup)
    {id : ExprId} {r : Typing} (h : (id, r) ∈ log) (t : TypingTable) :
    (t.insertAll log).get? id = some r := by
  induction log generalizing t with
  | nil => cases h
  | cons e log ih =>
    obtain ⟨hfresh, hnodup⟩ := List.nodup_cons.mp hnodup
    rcases List.mem_cons.mp h with rfl | h
    · exact (get?_insertAll_of_notMem hfresh (t.insert id r)).trans (get?_insert_self t id r)
    · exact ih hnodup h (t.insert e.1 e.2)

/-! ## The order of entries -/

/-- A table is known by its room and what it tells of each id. -/
theorem ext_get? {t t' : TypingTable} (hsize : t.results.size = t'.results.size)
    (h : ∀ id, t.get? id = t'.get? id) : t = t' := by
  obtain ⟨results⟩ := t
  obtain ⟨results'⟩ := t'
  congr 1
  apply Array.ext hsize
  intro i hi hi'
  simpa [get?, hi, hi'] using h ⟨i⟩

theorem size_insert (t : TypingTable) (id : ExprId) (r : Typing) :
    (t.insert id r).results.size = max t.results.size (id.index + 1) := by
  simp only [insert, Array.size_setIfInBounds, Array.size_append, Array.size_replicate]
  omega

/-- Entries for different ids do not get in each other's way. -/
theorem insert_comm (t : TypingTable) {id id' : ExprId} (h : id ≠ id') (r r' : Typing) :
    (t.insert id r).insert id' r' = (t.insert id' r').insert id r := by
  apply ext_get?
  · simp only [size_insert]
    omega
  · intro other
    by_cases hid : other = id
    · subst hid
      rw [get?_insert_of_ne _ _ h, get?_insert_self, get?_insert_self]
    · by_cases hid' : other = id'
      · subst hid'
        rw [get?_insert_self, get?_insert_of_ne _ _ hid, get?_insert_self]
      · rw [get?_insert_of_ne _ _ hid', get?_insert_of_ne _ _ hid, get?_insert_of_ne _ _ hid,
          get?_insert_of_ne _ _ hid']

/-- Where no id is entered twice, the order of the entries does not matter. -/
theorem insertAll_perm {log log' : List (ExprId × Typing)} (hperm : log.Perm log')
    (hnodup : (log.map Prod.fst).Nodup) (t : TypingTable) : t.insertAll log = t.insertAll log' := by
  refine hperm.foldl_eq' (fun e he e' he' t => ?_) t
  by_cases hid : e.1 = e'.1
  · rw [List.inj_on_of_nodup_map hnodup he he' hid]
  · exact insert_comm t hid e.2 e'.2

/-- In a program that meets no id twice, the table has all that the errands enter. -/
theorem get?_of_mem_log (h : ofProgram table n p = .ok t) (hids : p.exprIds.Nodup) {e : Errand}
    (he : e ∈ p.agenda table) {id : ExprId} {r : Typing} (hr : (id, r) ∈ e.log table) :
    t.get? id = some r := by
  obtain ⟨htyped, rfl⟩ := ofProgram_eq_ok_iff.mp h
  refine get?_insertAll_of_mem ?_ (List.mem_flatMap_of_mem he hr) _
  exact (log_perm_exprIds htyped).nodup_iff.mpr hids

/-- The table of a program that meets no id twice depends on its errands, not on their order. -/
theorem ofProgram_perm {p' : Program} (hids : p.exprIds.Nodup)
    (hperm : (p.agenda table).Perm (p'.agenda table)) :
    ofProgram table n p = .ok t ↔ ofProgram table n p' = .ok t := by
  have hmem : (∀ e ∈ p.agenda table, e.typed table = .ok ()) ↔
      ∀ e ∈ p'.agenda table, e.typed table = .ok () := forall_congr' fun e => by rw [hperm.mem_iff]
  rw [ofProgram_eq_ok_iff, ofProgram_eq_ok_iff, ← hmem]
  apply and_congr_right
  intro htyped
  have hnodup := (log_perm_exprIds htyped).nodup_iff.mpr hids
  rw [insertAll_perm (hperm.flatMap_right _) hnodup]

end TypingTable

end Pearl
