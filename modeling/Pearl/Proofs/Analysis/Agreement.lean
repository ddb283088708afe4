import Pearl.Proofs.Constant.Bounds
import Pearl.Proofs.Constant.Fold
import Pearl.Proofs.Typing.LiteralPrecision

/-! # Pool and types agree on literals

The pool and the table of types come from two passes over the same program. For each literal the
pool has a constant of its value, and where nothing imposes another precision on the literal, the
type of that constant is the one in the table. The constant may have been pooled for another
literal.
-/

namespace Pearl

namespace Constant

@[simp] theorem isFloat_opposite (k : Constant) : k.opposite.isFloat = k.isFloat := by
  cases k <;> rfl

end Constant

theorem Literal.isFloat_of_denote {site : LiteralSite} {g : Precisions} {value : Literal}
    {k : Constant} (h : value.denote site g = .ok k) :
    k.isFloat = true ↔ ∃ text stated, value = .float text stated := by
  cases value with
  | float text stated =>
    obtain ⟨v, -, hk⟩ := bind_eq_ok.mp h
    cases hk
    exact ⟨fun _ => ⟨text, stated, rfl⟩, fun _ => rfl⟩
  | fixed | bits =>
    obtain ⟨v, -, hk⟩ := bind_eq_ok.mp h
    cases hk
    exact ⟨(nomatch ·), fun ⟨_, _, hf⟩ => nomatch hf⟩
  | string =>
    cases h
    exact ⟨(nomatch ·), fun ⟨_, _, hf⟩ => nomatch hf⟩
  | duration | clock =>
    obtain ⟨hours, -, h⟩ := bind_eq_ok.mp h
    obtain ⟨minutes, -, h⟩ := bind_eq_ok.mp h
    obtain ⟨seconds, -, h⟩ := bind_eq_ok.mp h
    cases h
    exact ⟨(nomatch ·), fun ⟨_, _, hf⟩ => nomatch hf⟩

namespace Occurrence

variable {table : SymbolTable} {o : Occurrence} {k c : Constant}

theorem eq_signed_of_constant (h : o.constant table = .ok c)
    (hk : o.value.denote o.blamed (o.place.precisions table o.scope) = .ok k) : c = o.signed k := by
  obtain ⟨k', hk', h⟩ := bind_eq_ok.mp h
  cases hk.symm.trans hk'
  unfold signed
  split at h
  · rename_i hneg
    rw [if_pos hneg]
    split at h
    · exact (Except.ok.inj h).symm
    · cases h
  · rename_i hneg
    rw [if_neg hneg]
    exact (Except.ok.inj h).symm

theorem isFloat_signed : (o.signed k).isFloat = k.isFloat := by
  unfold signed
  split
  · exact k.isFloat_opposite
  · rfl

/-- Where nothing imposes a precision, the type of a literal is that of its constant. -/
theorem ty_eq_of_free (hbound : o.place.isBound = false)
    (himposed : o.place.imposed table o.scope = none) : o.ty table k = (o.signed k).ty := by
  unfold ty
  rw [hbound, himposed]
  cases o.signed k <;> rfl

end Occurrence

/-! ## The two passes -/

theorem Pool.exists_same_of_mem_occurrences {table : SymbolTable} {p : Program} {pool : Pool}
    (hwhole : ∀ e ∈ p.agenda table, e.Whole) (h : Pool.ofProgram table p = .ok pool)
    {o : Occurrence} (ho : o ∈ p.occurrences table) {k : Constant}
    (hk : o.value.denote o.blamed (o.place.precisions table o.scope) = .ok k) :
    ∃ e ∈ pool.entries, e.same (o.signed k) = true := by
  obtain ⟨hmet, rfl⟩ := (ofProgram_eq_ok_iff table hwhole pool).mp h
  obtain ⟨d, hd, hdo⟩ := List.mem_filterMap.mp ho
  cases d with
  | resolve r => cases hdo
  | literal o' =>
    cases hdo
    have hfault := hmet _ hd
    cases hc : o.constant table with
    | error fault => simp [Demand.fault?, hc] at hfault
    | ok c =>
      cases o.eq_signed_of_constant hc hk
      refine exists_same_of_mem (List.mem_flatMap.mpr ⟨_, hd, ?_⟩)
        (o.inBounds_of_constant hc).same_self
      simp [Demand.constants, hc]

namespace Analysis

theorem ofTree_eq_ok_iff {table : SymbolTable} {tree : Tree} {a : Analysis} :
    ofTree table tree = .ok a ↔ checkModules table tree = .ok () ∧
      Pool.ofTree table tree = .ok a.pool ∧ TypingTable.ofTree table tree = .ok a.expressions := by
  constructor
  · intro h
    obtain ⟨⟨⟩, hmodules, h⟩ := bind_eq_ok.mp h
    obtain ⟨pool, hpool, h⟩ := bind_eq_ok.mp h
    obtain ⟨expressions, hexpressions, h⟩ := bind_eq_ok.mp h
    cases h
    exact ⟨hmodules, hpool, hexpressions⟩
  · rintro ⟨hmodules, hpool, hexpressions⟩
    rw [ofTree, hmodules, hpool, hexpressions]
    rfl

theorem ofTree_eq_ok {table : SymbolTable} {tree : Tree} {a : Analysis}
    (h : ofTree table tree = .ok a) :
    Pool.ofTree table tree = .ok a.pool ∧ TypingTable.ofTree table tree = .ok a.expressions :=
  (ofTree_eq_ok_iff.mp h).2

/-- The literals with positions are all literals of a tree that can be analysed, and for each the
pool has an entry of the value of its constant. Outside of loop bounds and assignments to fixed
variables, the type of the entry is the one in the table, for a literal that is no float and a minus
sign that belongs to it. For a float the entry has the same bits. -/
theorem pool_agrees_with_types (table : SymbolTable) (tree : Tree) (a : Analysis)
    (h : ofTree table tree = .ok a) (hids : tree.program.exprIds.Nodup) :
    (tree.program.occurrences table).map (fun o => (o.site, o.value)) = tree.program.literals ∧
      ∀ o ∈ tree.program.occurrences table, ∃ k,
        o.value.denote ⟨o.site.location, o.site.text⟩ (o.place.precisions table o.scope) = .ok k ∧
        ∃ e ∈ a.pool.entries, e.same (o.signed k) = true ∧
          ((∀ text stated, o.value ≠ .float text stated) → o.place.isBound = false →
            o.place.imposed table o.scope = none →
              a.expressions.ty? o.site.id = some e.ty ∧
              ∀ minus, o.sign = some minus → o.isNegated = true →
                a.expressions.ty? minus.id = some e.ty) ∧
          ∀ text stated, o.value = .float text stated →
            ∃ v g g', o.signed k = .float v g ∧ e = .float v g' := by
  obtain ⟨hpool, htypes⟩ := ofTree_eq_ok h
  have htyped := (TypingTable.ofProgram_eq_ok_iff.mp htypes).1
  refine ⟨?_, fun o ho => ?_⟩
  · exact Program.occurrences_eq_literals table _ fun e he => Errand.passed_of_typed (htyped e he)
  obtain ⟨k, hk, hsite, hminus⟩ := Occurrence.get?_of_mem_occurrences htypes hids ho
  obtain ⟨e, he, hsame⟩ := Pool.exists_same_of_mem_occurrences
    (fun e he => Errand.whole_of_typed (htyped e he)) hpool ho hk
  have hfloat := Literal.isFloat_of_denote hk
  refine ⟨k, Literal.denote_of_site _ hk, e, he, hsame, fun hvalue hbound himposed => ?_, ?_⟩
  · have hnot : (o.signed k).isFloat = false := by
      rw [Occurrence.isFloat_signed, Bool.eq_false_iff]
      intro hk'
      obtain ⟨text, stated, hv⟩ := hfloat.mp hk'
      exact hvalue text stated hv
    rw [o.ty_eq_of_free hbound himposed, ← Constant.ty_eq_of_same hsame hnot] at hsite hminus
    unfold TypingTable.ty?
    refine ⟨by rw [hsite]; rfl, fun minus hm hneg => ?_⟩
    have hnum : o.value.isNumeric = true := (Bool.and_eq_true_iff.mp hneg).2
    rw [hminus minus hm hnum]
    rfl
  · intro text stated hvalue
    have hk' : (o.signed k).isFloat = true := by
      rw [Occurrence.isFloat_signed]
      exact hfloat.mpr ⟨text, stated, hvalue⟩
    cases hc : o.signed k with
    | float v g =>
      rw [hc] at hsame
      obtain ⟨g', rfl⟩ := Constant.eq_float_of_same hsame
      exact ⟨v, g, g', rfl, rfl⟩
    | fixed | bits | char | duration | clock =>
      rw [hc] at hk'
      cases hk'

/-- In the sample unit, the -3 in the body of the loop has the entry that was made for the bound -3,
and has its type, which is not that of the bound. -/
theorem pool_agrees_with_types_sample : Sample.tree.program.exprIds.Nodup ∧
    ∃ a, ofTree Sample.table Sample.tree = .ok a ∧ ∃ e ∈ a.pool.entries,
      e.same (.fixed (-3) 20) = true ∧ a.expressions.ty? ⟨6⟩ = some e.ty ∧
        a.expressions.ty? ⟨7⟩ = some e.ty := by
  have hids : Sample.tree.program.exprIds.Nodup := by decide +kernel
  obtain ⟨a, ha⟩ : ∃ a, ofTree Sample.table Sample.tree = .ok a :=
    exists_eq_ok_of_toBool (by decide +kernel)
  let number : Occurrence :=
    ⟨⟨3⟩, .plain, some ⟨⟨7⟩, .unknown, "-3"⟩, ⟨⟨6⟩, .unknown, "3"⟩, .fixed "3" none⟩
  have hnumber : number ∈ Sample.tree.program.occurrences Sample.table := by decide +kernel
  obtain ⟨-, hall⟩ := pool_agrees_with_types Sample.table Sample.tree a ha hids
  obtain ⟨k, hk, e, he, hsame, htypes, -⟩ := hall number hnumber
  have hk' : number.value.denote ⟨number.site.location, number.site.text⟩
      (number.place.precisions Sample.table number.scope) = .ok (.fixed 3 20) := by decide +kernel
  cases hk'.symm.trans hk
  obtain ⟨hsite, hminus⟩ := htypes (fun _ _ hv => nomatch hv) rfl rfl
  exact ⟨hids, a, ha, e, he, hsame, hsite, hminus _ rfl rfl⟩

end Analysis

end Pearl
