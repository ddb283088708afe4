import Pearl.Proofs.Analysis.Agreement
import Pearl.Proofs.Constant.Entries
import Pearl.Proofs.Tree.Rearranged

/-! # Analysis and the order of items and statements

Which scope a statement stands in and what its names mean is in the symbol table before a unit is
analysed. So the order of items and statements decides only which of several faults is reported, and
where a constant stands in the pool. Types do not change, and neither do the values in the pool.
-/

namespace Pearl

namespace Pool

variable {table : SymbolTable} {p p' : Program} {pool : Pool}

/-- A program with the same errands in another order has a pool that matches. -/
theorem exists_matches_of_perm (hwhole : ∀ e ∈ p.agenda table, e.Whole)
    (hperm : (p.agenda table).Perm (p'.agenda table)) (h : ofProgram table p = .ok pool) :
    ∃ pool', ofProgram table p' = .ok pool' ∧ pool.Matches pool' := by
  have hwhole' : ∀ e ∈ p'.agenda table, e.Whole := fun e he => hwhole e (hperm.mem_iff.mpr he)
  have hdemands : (p.demands table).Perm (p'.demands table) := hperm.flatMap_right _
  obtain ⟨hmet, rfl⟩ := (ofProgram_eq_ok_iff table hwhole pool).mp h
  refine ⟨_, (ofProgram_eq_ok_iff table hwhole' _).mpr
    ⟨fun d hd => hmet d (hdemands.mem_iff.mpr hd), rfl⟩, ?_⟩
  refine matches_of_perm (valid_basic _) ?_ ?_ (hdemands.flatMap_right _)
  · exact fun e he => (inBounds_of_mem_basic he).same_self
  · intro c hc
    obtain ⟨d, -, hc⟩ := List.mem_flatMap.mp hc
    exact (Demand.inBounds_of_mem_constants hc).same_self

end Pool

namespace Analysis

variable {table : SymbolTable} {tree tree' : Tree}

theorem checkModules_eq_ok_iff : checkModules table tree = .ok () ↔
    table.modules.length ≤ 1 ∧ tree.modules.length ≤ 1 := by
  unfold checkModules
  split
  · rename_i h
    exact ⟨fun _ => h, fun _ => rfl⟩
  · rename_i h
    exact ⟨nofun, fun h' => (h h').elim⟩

/-- A unit with the items of its module and the statements of its bodies in another order can be
analysed if and only if the unit itself can. The types are the same then, and the pools match and
begin with the same three entries. -/
theorem ofTree_rearranged (table : SymbolTable) (tree tree' : Tree) (hwf : tree.WellFormed)
    (hids : tree.program.exprIds.Nodup) (h : tree.Rearranged tree') :
    ((∃ a, ofTree table tree = .ok a) ↔ ∃ a, ofTree table tree' = .ok a) ∧
      ∀ a a', ofTree table tree = .ok a → ofTree table tree' = .ok a' →
        a.expressions = a'.expressions ∧ a.pool.Matches a'.pool ∧
          3 ≤ a.pool.entries.length ∧ a.pool.entries.take 3 = a'.pool.entries.take 3 := by
  have hperm := h.perm_agenda table
  have hwhole := hwf.whole_of_mem_agenda table
  have hwhole' : ∀ e ∈ tree'.program.agenda table, e.Whole :=
    fun e he => hwhole e (hperm.mem_iff.mpr he)
  have hmodules : checkModules table tree = .ok () ↔ checkModules table tree' = .ok () := by
    rw [checkModules_eq_ok_iff, checkModules_eq_ok_iff, h.modules.length_eq]
  have htypes :
      ∀ t, TypingTable.ofTree table tree = .ok t ↔ TypingTable.ofTree table tree' = .ok t := by
    intro t
    unfold TypingTable.ofTree
    rw [← h.exprs]
    exact TypingTable.ofProgram_perm hids hperm
  refine ⟨⟨?_, ?_⟩, ?_⟩
  · rintro ⟨a, ha⟩
    obtain ⟨hm, hp, ht⟩ := ofTree_eq_ok_iff.mp ha
    obtain ⟨pool, hpool, -⟩ := Pool.exists_matches_of_perm hwhole hperm hp
    exact ⟨⟨pool, a.expressions⟩, ofTree_eq_ok_iff.mpr ⟨hmodules.mp hm, hpool, (htypes _).mp ht⟩⟩
  · rintro ⟨a, ha⟩
    obtain ⟨hm, hp, ht⟩ := ofTree_eq_ok_iff.mp ha
    obtain ⟨pool, hpool, -⟩ := Pool.exists_matches_of_perm hwhole' hperm.symm hp
    exact ⟨⟨pool, a.expressions⟩, ofTree_eq_ok_iff.mpr ⟨hmodules.mpr hm, hpool, (htypes _).mpr ht⟩⟩
  · intro a a' ha ha'
    obtain ⟨-, hp, ht⟩ := ofTree_eq_ok_iff.mp ha
    obtain ⟨-, hp', ht'⟩ := ofTree_eq_ok_iff.mp ha'
    obtain ⟨pool, hpool, hmatches⟩ := Pool.exists_matches_of_perm hwhole hperm hp
    cases hpool.symm.trans hp'
    obtain ⟨hlength, htake⟩ := Pool.take_of_ofProgram hwhole hp
    obtain ⟨-, htake'⟩ := Pool.take_of_ofProgram hwhole' hp'
    exact ⟨Except.ok.inj (((htypes _).mp ht).symm.trans ht'), hmatches, hlength,
      htake.trans htake'.symm⟩

end Analysis

/-! ## The sample with its task in front -/

namespace Sample

def rearrangedTree : Tree where
  modules := [⟨"m", [.task "t" none [⟨2⟩] .unknown, .variable ⟨["x", "f"], [⟨0⟩, ⟨1⟩], .unknown⟩],
    .unknown⟩]
  exprs := tree.exprs
  stmts := #[⟨.assign "x" ⟨5⟩, .unknown⟩, ⟨.eval ⟨7⟩, .unknown⟩,
    ⟨.loop ⟨none, some ⟨3⟩, some ⟨8⟩, some ⟨9⟩, some ⟨13⟩, [⟨1⟩, ⟨0⟩]⟩, .unknown⟩]

theorem rearranged_tree : tree.Rearranged rearrangedTree where
  exprs := rfl
  stmts := .cons ⟨.assign .., rfl⟩ (.cons ⟨.eval _, rfl⟩ (.cons ⟨.loop _ (.swap ..), rfl⟩ .nil))
  modules :=
    .cons ⟨rfl, rfl, _, .cons (.variable _) (.cons (.task _ _ _ (.refl _)) .nil), .swap ..⟩ .nil

end Sample

/-- The constants are found in another order, and the pools match. -/
theorem Analysis.ofTree_rearranged_sample : Sample.tree.WellFormed ∧
    Sample.tree.program.exprIds.Nodup ∧ Sample.tree.Rearranged Sample.rearrangedTree ∧
    ∃ a a', ofTree Sample.table Sample.tree = .ok a ∧
      ofTree Sample.table Sample.rearrangedTree = .ok a' ∧ a.pool.entries ≠ a'.pool.entries ∧
      a.expressions = a'.expressions ∧ a.pool.Matches a'.pool ∧
      a.pool.entries.take 3 = a'.pool.entries.take 3 := by
  have hwf := Sample.refersBack_tree.wellFormed
  have hids : Sample.tree.program.exprIds.Nodup := by decide +kernel
  obtain ⟨hiff, hsame⟩ :=
    ofTree_rearranged Sample.table Sample.tree Sample.rearrangedTree hwf hids Sample.rearranged_tree
  obtain ⟨a, ha⟩ : ∃ a, ofTree Sample.table Sample.tree = .ok a :=
    exists_eq_ok_of_toBool (by decide +kernel)
  obtain ⟨a', ha'⟩ := hiff.mp ⟨a, ha⟩
  obtain ⟨htypes, hmatches, -, htake⟩ := hsame a a' ha ha'
  have hother : (ofTree Sample.table Sample.tree).map (·.pool.entries) ≠
      (ofTree Sample.table Sample.rearrangedTree).map (·.pool.entries) := by
    decide +kernel
  rw [ha, ha'] at hother
  refine ⟨hwf, hids, Sample.rearranged_tree, a, a', ha, ha', ?_, htypes, hmatches, htake⟩
  exact fun heq => hother (congrArg Except.ok heq)

end Pearl
