import Mathlib.Data.Set.Card
import Pearl.Proofs.Tree.Origin
import Pearl.Proofs.Typing.Entries

/-! # The expressions that a table of types knows

The table of a well-formed tree has an entry for each expression that the references lead to, and
for no other. An id that is met more than once has been entered as often, and one entry is left.
-/

namespace Pearl

namespace TypingTable

/-! ## Entries of any table -/

/-- What is known of an id that is entered does not depend on what was known before. -/
theorem exists_get?_insertAll {log : List (ExprId × Typing)} {id : ExprId}
    (h : id ∈ log.map Prod.fst) : ∃ r, ∀ t : TypingTable, (t.insertAll log).get? id = some r := by
  induction log with
  | nil => cases h
  | cons e log ih =>
    by_cases hlog : id ∈ log.map Prod.fst
    · obtain ⟨r, hr⟩ := ih hlog
      exact ⟨r, fun t => hr (t.insert e.1 e.2)⟩
    · rcases List.mem_cons.mp h with rfl | h
      · refine ⟨e.2, fun t => ?_⟩
        exact (get?_insertAll_of_notMem hlog _).trans (get?_insert_self t e.1 e.2)
      · exact (hlog h).elim

variable {t : TypingTable}

theorem mem_entries {id : ExprId} {r : Typing} : (id, r) ∈ t.entries ↔ t.get? id = some r := by
  have hget : t.get? id = some r ↔ t.results.toList[id.index]? = some (some r) := by
    unfold get?
    rw [Option.join_eq_some_iff, Array.getElem?_toList]
  rw [hget]
  unfold entries
  rw [List.mem_filterMap]
  constructor
  · rintro ⟨⟨entry, i⟩, hmem, he⟩
    obtain ⟨s, rfl, hs⟩ := Option.map_eq_some_iff.mp he
    cases hs
    exact List.mem_zipIdx_iff_getElem?.mp hmem
  · intro h
    exact ⟨(some r, id.index), List.mem_zipIdx_iff_getElem?.mpr h, rfl⟩

/-- Entries are listed by rising id. -/
theorem pairwise_entries (t : TypingTable) :
    t.entries.Pairwise fun e e' => e.1.index < e'.1.index := by
  have hpositions : t.results.toList.zipIdx.Pairwise fun e e' => e.2 < e'.2 := by
    rw [← List.pairwise_map, List.zipIdx_map_snd]
    exact List.pairwise_lt_range'
  apply hpositions.filterMap
  rintro ⟨entry, i⟩ ⟨entry', j⟩ hij e he e' he'
  obtain ⟨r, -, rfl⟩ := Option.map_eq_some_iff.mp he
  obtain ⟨r', -, rfl⟩ := Option.map_eq_some_iff.mp he'
  exact hij

/-! ## The table of a tree -/

theorem isSome_get?_iff_mem_exprIds {table : SymbolTable} {n : Nat} {p : Program}
    (h : ofProgram table n p = .ok t) {x : ExprId} : (t.get? x).isSome ↔ x ∈ p.exprIds := by
  obtain ⟨htyped, rfl⟩ := ofProgram_eq_ok_iff.mp h
  rw [← (log_perm_exprIds htyped).mem_iff]
  constructor
  · intro hsome
    by_contra hnot
    rw [get?_insertAll_of_notMem hnot, get?_withRoom] at hsome
    cases hsome
  · intro hx
    obtain ⟨r, hr⟩ := exists_get?_insertAll hx
    rw [hr]
    rfl

/-- The table of a well-formed tree knows the expressions that can be reached, and no others. Its
size is their number, and its entries list each of them once by rising id, in the JSON text as
well. -/
theorem domain_eq_reachable (table : SymbolTable) (tree : Tree) (hwf : tree.WellFormed)
    (t : TypingTable) (h : ofTree table tree = .ok t) :
    (∀ x, (t.get? x).isSome ↔ tree.ReachesExpr x) ∧
      t.size = {x | tree.ReachesExpr x}.ncard ∧
      ∃ ids : List ExprId, ids.Pairwise (fun x y => x.index < y.index) ∧
        (∀ x, x ∈ ids ↔ tree.ReachesExpr x) ∧
        List.Forall₂ (fun x e => e.1 = x ∧ t.get? x = some e.2) ids t.entries ∧
        ∃ fields, t.toJson = .object fields ∧
          List.Forall₂ (fun x f => f.1 = toString x.index ∧ (t.get? x).map Typing.toJson = some f.2)
            ids fields := by
  have hsome : ∀ x, (t.get? x).isSome ↔ tree.ReachesExpr x :=
    fun x => (isSome_get?_iff_mem_exprIds h).trans hwf.mem_exprIds
  have hsorted : (t.entries.map Prod.fst).Pairwise fun x y => x.index < y.index :=
    List.pairwise_map.mpr t.pairwise_entries
  have hmem : ∀ x, x ∈ t.entries.map Prod.fst ↔ tree.ReachesExpr x := by
    intro x
    rw [← hsome, Option.isSome_iff_exists]
    constructor
    · intro hx
      obtain ⟨⟨_, r⟩, he, rfl⟩ := List.mem_map.mp hx
      exact ⟨r, mem_entries.mp he⟩
    · rintro ⟨r, hr⟩
      exact List.mem_map.mpr ⟨(x, r), mem_entries.mpr hr, rfl⟩
  have hentry : ∀ e ∈ t.entries, t.get? e.1 = some e.2 := fun e he => mem_entries.mp he
  refine ⟨hsome, ?_, t.entries.map Prod.fst, hsorted, hmem, ?_, _, rfl, ?_⟩
  · have hset : {x | tree.ReachesExpr x} = ((t.entries.map Prod.fst).toFinset : Set ExprId) := by
      ext x
      rw [List.coe_toFinset]
      exact (hmem x).symm
    have hnodup : (t.entries.map Prod.fst).Nodup := by
      apply hsorted.imp
      rintro x y hlt rfl
      exact Nat.lt_irrefl _ hlt
    rw [hset, Set.ncard_coe_finset, List.toFinset_card_of_nodup hnodup, List.length_map]
    rfl
  · rw [List.forall₂_map_left_iff, List.forall₂_same]
    exact fun e he => ⟨rfl, hentry e he⟩
  · rw [List.forall₂_map_left_iff, List.forall₂_map_right_iff, List.forall₂_same]
    intro e he
    rw [hentry e he]
    exact ⟨rfl, rfl⟩

end TypingTable

/-! ## A unit with a shared expression

A task adds -3 to itself, where both operands are one expression. `NOW` stands in the tree and
nowhere in the task.
-/

namespace Sample

def sharedTree : Tree where
  modules := [⟨"m", [.task "t" none [⟨0⟩] .unknown], .unknown⟩]
  exprs := #[⟨.now, .unknown, "NOW"⟩, ⟨.literal (.fixed "3" none), .unknown, "3"⟩,
    ⟨.monadic .minus ⟨1⟩, .unknown, "-3"⟩, ⟨.dyadic .add ⟨2⟩ ⟨2⟩, .unknown, "-3 + -3"⟩]
  stmts := #[⟨.eval ⟨3⟩, .unknown⟩]

theorem refersBack_sharedTree : sharedTree.RefersBack := by decide

end Sample

/-- The shared expression has one entry among three. -/
theorem TypingTable.domain_eq_reachable_shared : Sample.sharedTree.WellFormed ∧
    ∃ t, ofTree Sample.table Sample.sharedTree = .ok t ∧
      Sample.sharedTree.ReachesExpr ⟨2⟩ ∧ (t.get? ⟨2⟩).isSome ∧
      t.size = 3 ∧ {x | Sample.sharedTree.ReachesExpr x}.ncard = 3 := by
  have hwf := Sample.refersBack_sharedTree.wellFormed
  obtain ⟨t, ht⟩ : ∃ t, ofTree Sample.table Sample.sharedTree = .ok t :=
    exists_eq_ok_of_toBool (by decide +kernel)
  have hsize : (ofTree Sample.table Sample.sharedTree).map size = .ok 3 := by decide +kernel
  rw [ht] at hsize
  have hsum : Sample.sharedTree.ReachesExpr ⟨3⟩ :=
    ⟨⟨3⟩, .inr ⟨⟨0⟩, _, ⟨_, List.mem_singleton_self _, ⟨0⟩, List.mem_singleton_self _, .refl⟩, rfl,
      List.mem_singleton_self _⟩, .refl⟩
  have hshared : Sample.sharedTree.ReachesExpr ⟨2⟩ := hsum.operand ⟨_, rfl, List.mem_cons_self ..⟩
  obtain ⟨hsome, hcard, -⟩ := domain_eq_reachable Sample.table Sample.sharedTree hwf t ht
  have h3 : t.size = 3 := Except.ok.inj hsize
  exact ⟨hwf, t, ht, hshared, (hsome ⟨2⟩).mpr hshared, h3, hcard.symm.trans h3⟩

end Pearl
