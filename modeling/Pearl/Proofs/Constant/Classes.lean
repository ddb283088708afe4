import Mathlib.Data.Finset.Card
import Pearl.Proofs.Constant.Order

/-! # Classes of constants

Sameness divides the constants that are the same as themselves into classes. A pool keeps one entry
for each class among the seeds and the constants that were added, the one that came first, so that
the order of the additions decides which constant stands for a class and where, but not how many
entries there are.
-/

namespace Pearl

namespace Constant

/-- The constants of a list that have the value of `c`. -/
def classIn (cs : List Constant) (c : Constant) : List Constant := cs.filter (c.same ·)

/-- The classes of constants of the same value among those of a list. -/
def classes (cs : List Constant) : Finset (List Constant) := (cs.map (classIn cs)).toFinset

variable {cs : List Constant} {c d : Constant}

theorem classIn_eq_of_same (h : c.same d = true) : classIn cs c = classIn cs d := by
  unfold classIn
  apply List.filter_congr
  intro e _
  rw [Bool.eq_iff_iff]
  exact ⟨same_trans (same_symm h), same_trans h⟩

@[simp] theorem classIn_numbered (n : Nat) : classIn cs (c.numbered n) = classIn cs c := by
  simp only [classIn, numbered_same]

/-- Constants of one class have the same value, if that of the second is in the list. -/
theorem same_of_classIn_eq (hd : d ∈ cs) (hself : d.same d = true)
    (h : classIn cs c = classIn cs d) : c.same d = true := by
  have hmem : d ∈ classIn cs d := List.mem_filter.mpr ⟨hd, hself⟩
  rw [← h] at hmem
  exact (List.mem_filter.mp hmem).2

end Constant

namespace Pool

open Constant

variable {cs : List Constant}

theorem mem_classes_iff (hcs : ∀ c ∈ cs, c.same c = true) (class' : List Constant) :
    class' ∈ classes cs ↔ ∃ e ∈ (empty.addAll cs).entries, classIn cs e = class' := by
  simp only [classes, List.mem_toFinset, List.mem_map]
  constructor
  · rintro ⟨c, hc, rfl⟩
    obtain ⟨e, he, hsame⟩ : ∃ e ∈ (empty.addAll cs).entries, e.same c = true :=
      exists_same_of_mem hc (hcs c hc)
    exact ⟨e, he, classIn_eq_of_same hsame⟩
  · rintro ⟨e, he, rfl⟩
    rcases mem_entries_addAll he with he | ⟨c, hc, n, rfl⟩
    · cases he
    · exact ⟨c, hc, (classIn_numbered n).symm⟩

/-- Entries of a pool are of different classes. -/
theorem nodup_classIn (hcs : ∀ c ∈ cs, c.same c = true) :
    ((empty.addAll cs).entries.map (classIn cs)).Nodup := by
  rw [List.Nodup, List.pairwise_map]
  refine (valid_empty.addAll cs).distinct.imp_of_mem ?_
  intro e e' _ he' hdistinct heq
  rcases mem_entries_addAll he' with he' | ⟨c, hc, n, rfl⟩
  · cases he'
  · rw [classIn_numbered] at heq
    rw [same_numbered, same_of_classIn_eq hc (hcs c hc) heq] at hdistinct
    cases hdistinct

/-- A pool has as many entries as there are classes among the constants that were added. -/
theorem length_entries_eq_card_classes (hcs : ∀ c ∈ cs, c.same c = true) :
    (empty.addAll cs).entries.length = (classes cs).card := by
  have hclasses : classes cs = ((empty.addAll cs).entries.map (classIn cs)).toFinset := by
    ext class'
    rw [mem_classes_iff hcs, List.mem_toFinset, List.mem_map]
  rw [hclasses, List.toFinset_card_of_nodup (nodup_classIn hcs), List.length_map]

/-- From the same seeds, of which an empty pool has none and a basic one has three, adding the same
constants in two orders gives pools of the same length, in which each entry has the value of exactly
one entry of the other. The length is the number of classes among seeds and constants. -/
theorem order_changes_only_order (seeds cs cs' : List Constant)
    (hseeds : ∀ c ∈ seeds, c.same c = true) (hcs : ∀ c ∈ cs, c.same c = true)
    (hperm : cs.Perm cs') :
    ((empty.addAll seeds).addAll cs).Matches ((empty.addAll seeds).addAll cs') ∧
      ((empty.addAll seeds).addAll cs).entries.length = (classes (seeds ++ cs)).card := by
  constructor
  · refine matches_of_perm (valid_empty.addAll seeds) ?_ hcs hperm
    intro e he
    rcases mem_entries_addAll he with he | ⟨c, hc, n, rfl⟩
    · cases he
    · rw [numbered_same, same_numbered]
      exact hseeds c hc
  · rw [← addAll_append]
    apply length_entries_eq_card_classes
    intro c hc
    exact (List.mem_append.mp hc).elim (hseeds c) (hcs c)

/-- Two floats that differ in precision and two durations of one hour are one entry each, whichever
is added first. With the seeds of a basic pool and a bit string that makes six. -/
theorem order_changes_only_order_mixed :
    let early : List Constant :=
      [.float ⟨0x4004000000000000⟩ 24, .duration 1 0 .zero, .bits [true] 7]
    let late : List Constant :=
      [.duration 0 59 ⟨0x404E000000000000⟩, .float ⟨0x4004000000000000⟩ 53]
    (∀ c ∈ early ++ late, c.same c = true) ∧
      ((basic 31).addAll (early ++ late)).Matches ((basic 31).addAll (late ++ early)) ∧
      ((basic 31).addAll (early ++ late)).entries.length = 6 := by
  intro early late
  have hself : ∀ c ∈ early ++ late, c.same c = true := by decide +kernel
  obtain ⟨hmatches, hlength⟩ := order_changes_only_order
    [.fixed 0 31, .fixed 1 31, .fixed (-1) 31] (early ++ late) (late ++ early) (by decide) hself
    List.perm_append_comm
  exact ⟨hself, hmatches, hlength.trans (by decide +kernel)⟩

end Pool

end Pearl
