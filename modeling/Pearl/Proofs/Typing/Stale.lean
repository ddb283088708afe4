import Pearl.Proofs.Typing.Faults
import Pearl.Proofs.Typing.Names

/-! # Typing does not look at old entries

An operator is typed from what the table has of its operands, and the table may hold anything when
typing begins. What is read was always entered right before: the outcome and the new entries are
those of the judgement, which knows no table, and only expressions below the one that is typed get
entries.
-/

namespace Pearl

open Relation Walk

namespace Judgement

/-- Nothing is entered but for the given ids, whatever the outcome. -/
def Within (j : Judgement) (ids : List ExprId) : Prop := ∀ e ∈ j.log, e.1 ∈ ids

end Judgement

namespace TypingTable

open Judgement

/-! ## An operand is never missed -/

/-- Whatever is put in place of the report on an operand without an entry, typing is the same. -/
theorem inferOr_eq_infer (missing : Expr → Infer Typing) (x : Expr) :
    inferOr missing x = infer x := by
  funext w
  obtain ⟨c, t⟩ := w
  change (inferOr missing x).runFrom ⟨c, t⟩ = (infer x).runFrom ⟨c, t⟩
  rw [judges_inferOr missing x t, judges_infer x t]

/-! ## Entries below an expression -/

variable {c : Context}

theorem within_judge (x : Expr) : (judge c x).Within x.ids := by
  intro e he
  obtain ⟨y, hy, hid, -⟩ := exists_part_of_entered he
  exact Expr.mem_ids_iff.mpr ⟨y, hy, hid⟩

/-- Two contexts that differ only in the way that led to their scope judge alike. -/
theorem judge_eq_of_inside {c c' : Context} (h : c.inside c.scope = c'.inside c'.scope) (x : Expr) :
    judge c x = judge c' x := by
  rw [← judge_inside c, ← judge_inside c', h]

/-- From the same scope and with the same precisions imposed, typing an expression comes to the same
outcome whatever the table holds. If it succeeds, everything below the expression is known, and
alike in both tables. Nothing else gets or loses an entry, whether it succeeds or fails. No operand
is ever found without an entry, so that typing is the same whatever is done then. -/
theorem infer_ignores_entries (tree : Tree) (x : ExprId) (hx : tree.SoundAt x) (c c' : Context)
    (hc : c.inside c.scope = c'.inside c'.scope) (t t' : TypingTable)
    (outcome outcome' : Except Halt Unit) (w w' : Walker TypingTable)
    (h : (infer (tree.expr x)).runFrom ⟨c, t⟩ = (outcome, w))
    (h' : (infer (tree.expr x)).runFrom ⟨c', t'⟩ = (outcome', w')) :
    outcome = outcome' ∧ outcome ≠ .error .danglingReference ∧
      (outcome = .ok () → ∀ y, ReflTransGen tree.Operand x y →
        ∃ r, w.store.get? y = some r ∧ w'.store.get? y = some r) ∧
      (∀ y, ¬ReflTransGen tree.Operand x y →
        w.store.get? y = t.get? y ∧ w'.store.get? y = t'.get? y) ∧
      ∀ missing, inferOr missing (tree.expr x) = infer (tree.expr x) := by
  rw [judges_infer _ t] at h
  rw [judges_infer _ t', ← judge_eq_of_inside hc] at h'
  cases h
  cases h'
  refine ⟨rfl, ?_, ?_, ?_, fun missing => inferOr_eq_infer missing _⟩
  · intro hdangling
    exact judge_ne_dangling hx.whole (map_eq_error.mp hdangling)
  · intro hok y hy
    obtain ⟨r, hr, -⟩ := map_eq_ok.mp hok
    have hmem := (ids_perm_of_judge hr).mem_iff.mpr (hx.mem_ids.mpr hy)
    obtain ⟨s, hs⟩ := exists_get?_insertAll hmem
    exact ⟨s, hs t, hs t'⟩
  · intro y hy
    have hnot : y ∉ (judge c (tree.expr x)).log.map Prod.fst := by
      intro hmem
      obtain ⟨e, he, rfl⟩ := List.mem_map.mp hmem
      exact hy (hx.mem_ids.mp (within_judge _ e he))
    exact ⟨get?_insertAll_of_notMem hnot t, get?_insertAll_of_notMem hnot t'⟩

/-- In a loop bound, the sum of a shared -3 and itself has the same entries whether the table was
empty or held a clock for the number and a task for `NOW`, of which only the latter stays. -/
theorem infer_ignores_entries_shared :
    let task : Context := { (Context.new Sample.table).inside ⟨2⟩ with inBound := true }
    let deeper : Context := { (Context.new Sample.table).enter ⟨2⟩ with inBound := true }
    let old := (empty.insert ⟨1⟩ (.runtime .clock)).insert ⟨0⟩ (.runtime .task)
    Sample.sharedTree.SoundAt ⟨3⟩ ∧ task.inside task.scope = deeper.inside deeper.scope ∧
      ∃ w w', (infer (Sample.sharedTree.expr ⟨3⟩)).runFrom ⟨task, empty⟩ = (.ok (), w) ∧
        (infer (Sample.sharedTree.expr ⟨3⟩)).runFrom ⟨deeper, old⟩ = (.ok (), w') ∧
        w.store.get? ⟨1⟩ = w'.store.get? ⟨1⟩ ∧ w'.store.get? ⟨0⟩ = some (.runtime .task) := by
  intro task deeper old
  have hx : Sample.sharedTree.SoundAt ⟨3⟩ := Sample.refersBack_sharedTree.soundAt (by decide)
  have hnumber : ReflTransGen Sample.sharedTree.Operand ⟨3⟩ ⟨1⟩ := hx.mem_ids.mp (by decide)
  have hnow : ¬ReflTransGen Sample.sharedTree.Operand ⟨3⟩ ⟨0⟩ := fun h =>
    absurd (hx.mem_ids.mpr h) (by decide)
  have hrun : ((infer (Sample.sharedTree.expr ⟨3⟩)).runFrom ⟨task, empty⟩).1 = .ok () := by
    decide
  generalize hw : (infer (Sample.sharedTree.expr ⟨3⟩)).runFrom ⟨task, empty⟩ = run at hrun
  generalize hw' : (infer (Sample.sharedTree.expr ⟨3⟩)).runFrom ⟨deeper, old⟩ = run'
  obtain ⟨outcome, w⟩ := run
  obtain ⟨outcome', w'⟩ := run'
  obtain ⟨hsame, -, hbelow, hbeside, -⟩ :=
    infer_ignores_entries Sample.sharedTree ⟨3⟩ hx task deeper rfl empty old outcome outcome' w w'
      hw hw'
  obtain ⟨r, hr, hr'⟩ := hbelow hrun ⟨1⟩ hnumber
  refine ⟨hx, rfl, w, w', Prod.ext hrun rfl, Prod.ext (hsame.symm.trans hrun) rfl,
    hr.trans hr'.symm, ?_⟩
  exact (hbeside ⟨0⟩ hnow).2.trans (get?_insert_self _ _ _)

end TypingTable

end Pearl
