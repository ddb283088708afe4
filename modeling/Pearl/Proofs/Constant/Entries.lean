import Pearl.Proofs.Constant.Bounds
import Pearl.Proofs.Constant.Fold
import Pearl.Proofs.Constant.Order

/-! # Entries of a pool

An entry of the pool of a program is 0, 1 or -1, or the constant of a literal. So it is within
bounds and is the same as itself, and as no entry has the value of an earlier one, it is found at
its own index.
-/

namespace Pearl

/-- The constants of a program are within bounds. -/
theorem Demand.inBounds_of_mem_constants {table : SymbolTable} {d : Demand} {c : Constant}
    (hc : c ∈ d.constants table) : c.InBounds := by
  cases d with
  | resolve => cases hc
  | literal o =>
    simp only [constants] at hc
    split at hc
    · next c' hconstant =>
      cases List.mem_singleton.mp hc
      exact o.inBounds_of_constant hconstant
    · cases hc

namespace Pool

variable {table : SymbolTable} {p : Program} {pool : Pool}

theorem entries_basic (g : Precision) :
    (basic g).entries = [.fixed 0 g, .fixed 1 g, .fixed (-1) g] := by
  simp [basic, addAll, add, position?, empty, Constant.same, Constant.numbered, List.findIdx?_cons]

theorem inBounds_of_mem_basic {g : Precision} {e : Constant} (h : e ∈ (basic g).entries) :
    e.InBounds := by
  rw [entries_basic] at h
  simp only [List.mem_cons, List.not_mem_nil, or_false] at h
  rcases h with rfl | rfl | rfl <;> exact show Text.FitsWord _ by decide

/-- A bit string that a pool took in has a number. -/
theorem Valid.ordinal_pos (hp : pool.Valid) {pattern : List Bool} {n : Nat}
    (h : .bits pattern n ∈ pool.entries) : 0 < n := by
  obtain ⟨k, hk⟩ := List.mem_iff_getElem?.mp (List.mem_filter.mpr ⟨h, rfl⟩ : _ ∈ pool.bitStrings)
  have hordinal : (if 0 < n then some n else none) = some (k + 1) := hp.numbered k _ hk
  split at hordinal
  · assumption
  · cases hordinal

/-- An entry that is the same as itself is found at its own index. -/
theorem Valid.position?_eq (hp : pool.Valid) {i : Nat} {e : Constant}
    (hi : pool.entries[i]? = some e) (he : e.same e = true) : pool.position? e = some i := by
  obtain ⟨hlt, rfl⟩ := List.getElem?_eq_some_iff.mp hi
  refine List.findIdx?_eq_some_iff_getElem.mpr ⟨hlt, he, fun j hj => ?_⟩
  exact Bool.eq_false_iff.mp
    (List.pairwise_iff_getElem.mp hp.distinct j i (Nat.lt_trans hj hlt) hlt hj)

section OfProgram

variable (hwhole : ∀ e ∈ p.agenda table, e.Whole) (h : ofProgram table p = .ok pool)
include hwhole h

/-- A pool begins with 0, 1 and -1. -/
theorem take_of_ofProgram : 3 ≤ pool.entries.length ∧
    pool.entries.take 3 = (basic table.defaults.fixedPrecision).entries := by
  obtain ⟨-, rfl⟩ := (ofProgram_eq_ok_iff table hwhole pool).mp h
  have hprefix := entries_prefix_addAll (basic table.defaults.fixedPrecision)
    ((p.demands table).flatMap (Demand.constants table))
  have hlength : (basic table.defaults.fixedPrecision).entries.length = 3 := by
    rw [entries_basic]
    rfl
  exact ⟨hlength ▸ hprefix.length_le, hlength ▸ (List.prefix_iff_eq_take.mp hprefix).symm⟩

theorem valid_of_ofProgram : pool.Valid := by
  obtain ⟨-, rfl⟩ := (ofProgram_eq_ok_iff table hwhole pool).mp h
  exact (valid_basic _).addAll _

theorem inBounds_of_mem_entries {e : Constant} (he : e ∈ pool.entries) : e.InBounds := by
  obtain ⟨-, rfl⟩ := (ofProgram_eq_ok_iff table hwhole pool).mp h
  rcases mem_entries_addAll he with he | ⟨c, hc, n, rfl⟩
  · exact inBounds_of_mem_basic he
  · obtain ⟨d, -, hc⟩ := List.mem_flatMap.mp hc
    exact (c.inBounds_numbered n).mpr (Demand.inBounds_of_mem_constants hc)

end OfProgram

/-- Each entry of the pool of a well-formed tree is within bounds, bit strings have numbers, the
first entries are 0, 1 and -1 at the precision of the language, and each entry is found at its own
index. -/
theorem entries_in_bounds_and_found (table : SymbolTable) (tree : Tree) (hwf : tree.WellFormed)
    (pool : Pool) (h : ofTree table tree = .ok pool) :
    (∀ e ∈ pool.entries, e.InBounds) ∧
      (∀ pattern n, .bits pattern n ∈ pool.entries → 0 < n) ∧
      pool.entries.take 3 = [.fixed 0 table.defaults.fixedPrecision,
        .fixed 1 table.defaults.fixedPrecision, .fixed (-1) table.defaults.fixedPrecision] ∧
      ∀ i e, pool.entries[i]? = some e → pool.position? e = some i := by
  have hwhole := hwf.whole_of_mem_agenda table
  have hvalid := valid_of_ofProgram hwhole h
  have hbounds (e : Constant) (he : e ∈ pool.entries) : e.InBounds :=
    inBounds_of_mem_entries hwhole h he
  refine ⟨hbounds, fun pattern n => hvalid.ordinal_pos, ?_, fun i e hi => ?_⟩
  · rw [(take_of_ofProgram hwhole h).2, entries_basic]
  · exact hvalid.position?_eq hi (hbounds e (List.mem_of_getElem? hi)).same_self

end Pool

/-! ## A unit with times

A task evaluates a duration, a clock time of the next day, a bit string and a negative number.
-/

namespace Sample

def timesTree : Tree where
  modules := [⟨"m", [.task "t" none [⟨0⟩, ⟨1⟩, ⟨2⟩, ⟨3⟩] .unknown], .unknown⟩]
  exprs := #[⟨.literal (.duration (some "100") none (some "0.5")), .unknown, ""⟩,
    ⟨.literal (.clock "25" "59" "1.5"), .unknown, ""⟩, ⟨.literal (.bits "1" 1), .unknown, ""⟩,
    ⟨.literal (.float "2.5" none), .unknown, ""⟩, ⟨.monadic .minus ⟨3⟩, .unknown, ""⟩]
  stmts := #[⟨.eval ⟨0⟩, .unknown⟩, ⟨.eval ⟨1⟩, .unknown⟩, ⟨.eval ⟨2⟩, .unknown⟩,
    ⟨.eval ⟨4⟩, .unknown⟩]

theorem refersBack_timesTree : timesTree.RefersBack := by decide

end Sample

theorem Pool.entries_in_bounds_and_found_times : Sample.timesTree.WellFormed ∧
    ∃ pool, ofTree Sample.table Sample.timesTree = .ok pool ∧ (∀ e ∈ pool.entries, e.InBounds) ∧
      ∃ s, pool.entries[4]? = some (.clock 1 59 s) ∧ pool.position? (.clock 1 59 s) = some 4 := by
  have hwf := Sample.refersBack_timesTree.wellFormed
  obtain ⟨pool, hpool, hentry⟩ := map_eq_ok.mp (show
    (ofTree Sample.table Sample.timesTree).map (fun pool => pool.entries[4]?) =
      .ok (some (.clock 1 59 ⟨0x3FF8000000000000⟩)) by decide +kernel)
  obtain ⟨hbounds, -, -, hfound⟩ := entries_in_bounds_and_found _ _ hwf pool hpool
  exact ⟨hwf, pool, hpool, hbounds, _, hentry, hfound 4 _ hentry⟩

end Pearl
