import Pearl.Proofs.Analysis.Agreement
import Pearl.Proofs.Analysis.Monotone
import Pearl.Proofs.SymbolTable.Lexical
import Pearl.Proofs.Tree.Building
import Pearl.Proofs.Typing.FirstViolation

/-! # How an analysis ends

Over a table whose chains of scopes end, both passes over a well-formed tree come to an end:
following the references further than there are nodes makes no difference, and no search outward
goes on forever. The pool is there or a diagnostic is reported. The same holds of the types, unless
the lengths of two strings add up to more than a precision can hold. Trees that are built from ids
that were returned before are well formed.
-/

namespace Pearl

/-- There is a result, or a diagnostic is reported. -/
def Concludes {α : Type} (r : Except Halt α) : Prop :=
  (∃ a, r = .ok a) ∨ ∃ d, r = .error (.reported d)

/-- Where only `P` keeps an outcome from concluding and `P` leaves no result, a length overflows
exactly if `P` and no diagnostic comes first. -/
theorem overflow_iff {α : Type} {r : Except Halt α} {P : Prop}
    (hends : Concludes r ∨ r = .error .lengthOverflow ∧ P) (hresult : P → ∀ a, r ≠ .ok a) :
    r = .error .lengthOverflow ↔ P ∧ ∀ d, r ≠ .error (.reported d) := by
  constructor
  · rintro rfl
    rcases hends with (⟨a, ha⟩ | ⟨d, hd⟩) | ⟨-, hP⟩
    · cases ha
    · cases hd
    · exact ⟨hP, fun d hd => by cases hd⟩
  · rintro ⟨hP, hreported⟩
    rcases hends with (⟨a, ha⟩ | ⟨d, hd⟩) | ⟨h, -⟩
    · exact (hresult hP a ha).elim
    · exact (hreported d hd).elim
    · exact h

/-! ## Levels -/

namespace Tree.WellFormed

variable {t : Tree} (h : t.WellFormed)
include h

/-- The levels to which an expression is followed are all that it has. -/
theorem unfoldExpr_eq {x : ExprId} (hx : t.ReachesExpr x) {n : Nat} (hn : t.exprs.size ≤ n) :
    t.unfoldExpr n x = t.expr x :=
  unfoldExpr_of_le (h.soundAt hx).whole hn

/-- There are no more levels of a statement than statements. -/
theorem unfoldStmt_of_le {s : StmtId} (hs : t.ReachesStmt s) {n : Nat} (hn : t.stmts.size ≤ n) :
    t.unfoldStmt n s = t.unfoldStmt t.stmts.size s := by
  refine h.stmt_induction
    (motive := fun m s => ∀ n, m ≤ n → t.unfoldStmt n s = t.unfoldStmt m s)
    ?_ (Nat.le_refl _) hs n hn
  intro m s node hs hnode ih n hn
  obtain ⟨n, rfl⟩ := Nat.exists_eq_add_of_le' hn
  have hbody (body : List StmtId) (hsub : body ⊆ node.form.stmts) :
      (body.map fun id (_ : Unit) => t.unfoldStmt (n + m) id) =
        body.map fun id _ => t.unfoldStmt m id := by
    apply List.map_congr_left
    intro r hr
    rw [ih r (hsub hr) (n + m) (Nat.le_add_left m n)]
  rw [← Nat.add_assoc]
  unfold unfoldStmt
  rw [hnode]
  dsimp only
  generalize node.form = form at hbody
  cases form with
  | declare | assign | ret | eval => rfl
  | block body => exact congrArg (Stmt.block _) (hbody body (List.Subset.refl _))
  | loop l => exact congrArg (Stmt.loop _ _ _) (hbody l.body (List.Subset.refl _))
  | branch condition thenBody elseBody =>
    exact congrArg₂ (Stmt.branch _ _) (hbody thenBody (List.subset_append_left ..))
      (hbody elseBody (List.subset_append_right ..))

theorem unfoldStmt_eq {s : StmtId} (hs : t.ReachesStmt s) {n : Nat} (hn : t.stmts.size ≤ n) :
    t.unfoldStmt n s = t.stmt s := by
  rw [stmt, h.unfoldStmt_of_le hs hn, h.unfoldStmt_of_le hs t.size_le_stmtLevels]

end Tree.WellFormed

/-! ## Lengths -/

open TypingTable

/-- A traversal completes a concatenation of strings that are too long together. -/
def Tree.Overflows (tree : Tree) (table : SymbolTable) : Prop :=
  ∃ c x node y z r s, (c, tree.expr x) ∈ tree.program.completions table ∧ tree.ReachesExpr x ∧
    tree.expr? x = some node ∧ node.form = .dyadic .cat y z ∧ Types c (tree.expr y) r ∧
    Types c (tree.expr z) s ∧ r.ty.TooLong s.ty

namespace Tree.WellFormed

variable {table : SymbolTable} {tree : Tree} (hwf : tree.WellFormed)
include hwf

theorem overflows (h : TypingTable.ofTree table tree = .error .lengthOverflow) :
    tree.Overflows table := by
  obtain ⟨before, c, x, node, after, y, z, r, s, hsplit, -, hx, hnode, hrest⟩ :=
    hwf.overflowsFirst h
  exact ⟨c, x, node, y, z, r, s, hsplit ▸ List.mem_append_cons_self, hx, hnode, hrest⟩

/-- Nothing is typed where a length overflows. -/
theorem types_ne_ok (h : tree.Overflows table) (types : TypingTable) :
    TypingTable.ofTree table tree ≠ .ok types := by
  obtain ⟨c, x, node, y, z, r, s, hmem, hreach, hnode, hform, hr, hs, hlong⟩ := h
  have hrule : node.form.rule? c.table.defaults.durationRatioPrecision [r.ty, s.ty] =
      some (.error .lengthOverflow) := by
    rw [hform]
    exact congrArg some (Dyadic.concatenation_eq_error_iff.mpr hlong)
  have hrefuses : Refuses c tree node .lengthOverflow := by
    refine ⟨[r, s], ?_, hrule⟩
    rw [hform]
    exact .cons hr (.cons hs .nil)
  have hviolates := (violates_expr_iff (hwf.soundAt hreach) hnode).mpr hrefuses
  obtain ⟨halt, hhalt⟩ := exists_error_of_violates hmem hviolates
  intro hok
  cases hhalt.symm.trans hok

theorem pool_concludes (table : SymbolTable) : Concludes (Pool.ofTree table tree) := by
  cases h : Pool.ofTree table tree with
  | ok pool => exact .inl ⟨pool, rfl⟩
  | error halt =>
    obtain ⟨d, rfl⟩ := Pool.reported_of_ofProgram_eq_error (hwf.whole_of_mem_agenda table) h
    exact .inr ⟨d, rfl⟩

theorem types_conclude_or_overflow (table : SymbolTable) :
    Concludes (TypingTable.ofTree table tree) ∨
    TypingTable.ofTree table tree = .error .lengthOverflow ∧ tree.Overflows table := by
  cases h : TypingTable.ofTree table tree with
  | ok t => exact .inl (.inl ⟨t, rfl⟩)
  | error halt =>
    cases halt with
    | reported d => exact .inl (.inr ⟨d, rfl⟩)
    | lengthOverflow => exact .inr ⟨rfl, hwf.overflows h⟩
    | danglingReference =>
      obtain ⟨e, he, hfails⟩ := ofProgram_eq_error h
      exact (Errand.typed_ne_dangling (hwf.whole_of_mem_agenda table e he) hfails).elim

theorem analysis_concludes_or_overflows (table : SymbolTable) :
    Concludes (Analysis.ofTree table tree) ∨
    Analysis.ofTree table tree = .error .lengthOverflow ∧ tree.Overflows table := by
  cases h : Analysis.ofTree table tree with
  | ok a => exact .inl (.inl ⟨a, rfl⟩)
  | error halt =>
    rcases Analysis.error_of_ofTree h with ⟨d, rfl⟩ | hpool | htypes
    · exact .inl (.inr ⟨d, rfl⟩)
    · obtain ⟨d, rfl⟩ := Pool.reported_of_ofProgram_eq_error (hwf.whole_of_mem_agenda table) hpool
      exact .inl (.inr ⟨d, rfl⟩)
    · rcases hwf.types_conclude_or_overflow table with (⟨t, ht⟩ | ⟨d, hd⟩) | ⟨hlong, hoverflows⟩
      · cases htypes.symm.trans ht
      · cases htypes.symm.trans hd
        exact .inl (.inr ⟨d, rfl⟩)
      · cases htypes.symm.trans hlong
        exact .inr ⟨rfl, hoverflows⟩

end Tree.WellFormed

/-- Over a table whose chains of scopes end, the searches outward end, the references of a
well-formed tree are followed as far as they lead, and there is a pool or a diagnostic. There are
types, or a diagnostic, or a length overflows, which happens exactly if a concatenation that the
traversal gets to is too long and no diagnostic is reported, and so it is for the whole analysis. A
tree whose nodes and modules were made with ids that had been returned has its nodes numbered from
zero, each refers to smaller numbers, and it is well formed. -/
theorem analysis_ends_or_overflows (table : SymbolTable) (tree : Tree) (calls : List Builder.Call) :
    ((∀ i, ∃ n, table.EndsWithin n i) → tree.WellFormed →
      (∀ i, table.SearchesEnd i) ∧
      (∀ x, tree.ReachesExpr x → ∀ n, tree.exprs.size ≤ n → tree.unfoldExpr n x = tree.expr x) ∧
      (∀ s, tree.ReachesStmt s → ∀ n, tree.stmts.size ≤ n → tree.unfoldStmt n s = tree.stmt s) ∧
      Concludes (Pool.ofTree table tree) ∧
      (Concludes (TypingTable.ofTree table tree) ∨
        TypingTable.ofTree table tree = .error .lengthOverflow) ∧
      (TypingTable.ofTree table tree = .error .lengthOverflow ↔
        tree.Overflows table ∧ ∀ d, TypingTable.ofTree table tree ≠ .error (.reported d)) ∧
      (Concludes (Analysis.ofTree table tree) ∨
        Analysis.ofTree table tree = .error .lengthOverflow) ∧
      (Analysis.ofTree table tree = .error .lengthOverflow ↔
        tree.Overflows table ∧ ∀ d, Analysis.ofTree table tree ≠ .error (.reported d))) ∧
    (Builder.Session.Careful calls →
      (Builder.Session.run calls).Sound ∧ (Builder.Session.run calls).builder.tree.WellFormed) := by
  constructor
  · intro hchains hwf
    have htypes := hwf.types_conclude_or_overflow table
    have hanalysis := hwf.analysis_concludes_or_overflows table
    refine ⟨fun i => ?_, fun x hx n hn => hwf.unfoldExpr_eq hx hn,
      fun s hs n hn => hwf.unfoldStmt_eq hs hn,
      hwf.pool_concludes table, htypes.imp_right And.left, overflow_iff htypes hwf.types_ne_ok,
      hanalysis.imp_right And.left, overflow_iff hanalysis ?_⟩
    · obtain ⟨n, hn⟩ := hchains i
      exact hn.searchesEnd
    · intro hlong a ha
      exact hwf.types_ne_ok hlong _ (Analysis.ofTree_eq_ok ha).2
  · intro hcalls
    exact ⟨hcalls.sound, hcalls.sound.refersBack.wellFormed⟩

/-! ## A string that is too long -/

namespace Sample

/-- The task evaluates the variable, with one more character if `more`. -/
def longCalls (more : Bool) : List Builder.Call :=
  [.expr (.name "x"), .expr (.literal (.string "a")), .expr (.dyadic .cat ⟨0⟩ ⟨1⟩),
    .stmt (.eval (if more then ⟨2⟩ else ⟨0⟩)), .module "m" [.task "t" none [⟨0⟩] .unknown]]

end Sample

/-- The variable alone is not too long, though the tree has the concatenation. -/
theorem analysis_ends_or_overflows_alone :
    let table := (SymbolTable.new {}).run Sample.longHistory
    let tree := (Builder.Session.run (Sample.longCalls false)).builder.tree
    (∀ i, ∃ n, table.EndsWithin n i) ∧ Builder.Session.Careful (Sample.longCalls false) ∧
      tree.WellFormed ∧ (∀ i, table.SearchesEnd i) ∧ Concludes (Analysis.ofTree table tree) := by
  intro table tree
  have hcalls : Builder.Session.Careful (Sample.longCalls false) := by decide
  obtain ⟨hends, hbuilt⟩ := analysis_ends_or_overflows table tree (Sample.longCalls false)
  have hwf := (hbuilt hcalls).2
  obtain ⟨hsearch, -, -, -, -, -, hanalysis, -⟩ := hends Sample.endsWithin_longHistory hwf
  refine ⟨Sample.endsWithin_longHistory, hcalls, hwf, hsearch, hanalysis.resolve_right ?_⟩
  intro hlong
  have hok : (Analysis.ofTree table tree).toBool = true := by decide
  rw [hlong] at hok
  cases hok

/-- With one more character there is neither a result nor a diagnostic. -/
theorem concatenation_too_long :
    let table := (SymbolTable.new {}).run Sample.longHistory
    let tree := (Builder.Session.run (Sample.longCalls true)).builder.tree
    (∀ i, ∃ n, table.EndsWithin n i) ∧ tree.WellFormed ∧
      TypingTable.ofTree table tree = .error .lengthOverflow ∧
      Analysis.ofTree table tree = .error .lengthOverflow := by
  intro table tree
  have hcalls : Builder.Session.Careful (Sample.longCalls true) := by decide
  refine ⟨Sample.endsWithin_longHistory, hcalls.sound.refersBack.wellFormed, ?_, ?_⟩
  · exact map_eq_error.mp (show (TypingTable.ofTree table tree).map (fun _ => ()) = _ by decide)
  · exact map_eq_error.mp (show (Analysis.ofTree table tree).map (fun _ => ()) = _ by decide)

end Pearl
