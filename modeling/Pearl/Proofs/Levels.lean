import Mathlib.Data.List.Nodup
import Mathlib.Logic.Relation
import Mathlib.Tactic.Common

/-! # Levels of numbered nodes

Nodes are numbered, and each may lead to others. If no node leads back to itself, a way from node to
node passes each of them once at most, so that there are no more levels than nodes.
-/

namespace Pearl

open Relation

/-- Whatever holds of a node one level up whenever it holds of the nodes below it holds of all
nodes, at a level that is no less than their number. The nodes on a way down differ, so that there
are no more of them than nodes. -/
theorem level_induction {α : Type} (index : α → Nat) (hindex : Function.Injective index)
    {size : Nat} {Below : α → α → Prop} {Reached : α → Prop}
    (hsize : ∀ x, Reached x → index x < size) (hbelow : ∀ x y, Reached x → Below x y → Reached y)
    (hacyclic : ∀ x, Reached x → ¬TransGen Below x x) {motive : Nat → α → Prop}
    (step : ∀ n x, Reached x → (∀ y, Below x y → motive n y) → motive (n + 1) x)
    {n : Nat} (hn : size ≤ n) {x : α} (hx : Reached x) : motive n x := by
  have hfresh : ∀ (above : List α) (x : α), Reached x →
      (∀ y ∈ above, Reached y ∧ TransGen Below y x) → x ∉ above :=
    fun above x hx habove hmem => hacyclic x hx (habove x hmem).2
  suffices h : ∀ n (above : List α) (x : α), Reached x → above.Nodup →
      (∀ y ∈ above, Reached y ∧ TransGen Below y x) → size ≤ above.length + n → motive n x from
    h n [] x hx List.nodup_nil (by simp) (by simpa using hn)
  intro n
  induction n with
  | zero =>
    intro above x hx hnodup habove hlen
    have hnodup' : ((x :: above).map index).Nodup :=
      (List.nodup_cons.mpr ⟨hfresh above x hx habove, hnodup⟩).map hindex
    have hsub : (x :: above).map index ⊆ List.range size := by
      intro i hi
      obtain ⟨y, hy, rfl⟩ := List.mem_map.mp hi
      rw [List.mem_range]
      rcases List.mem_cons.mp hy with rfl | hy
      · exact hsize _ hx
      · exact hsize _ (habove y hy).1
    have hle := hnodup'.length_le_of_subset hsub
    rw [List.length_map, List.length_cons, List.length_range] at hle
    omega
  | succ n ih =>
    intro above x hx hnodup habove hlen
    refine step n x hx fun y hxy => ?_
    refine ih (x :: above) y (hbelow x y hx hxy) ?_ ?_ ?_
    · exact List.nodup_cons.mpr ⟨hfresh above x hx habove, hnodup⟩
    · intro z hz
      rcases List.mem_cons.mp hz with rfl | hz
      · exact ⟨hx, .single hxy⟩
      · exact ⟨(habove z hz).1, (habove z hz).2.tail hxy⟩
    · rw [List.length_cons]
      omega

theorem lt_of_transGen {α : Type} (index : α → Nat) {Below : α → α → Prop}
    (hlt : ∀ x y, Below x y → index y < index x) {x y : α} (h : TransGen Below x y) :
    index y < index x := by
  induction h with
  | single hxy => exact hlt _ _ hxy
  | tail _ hyz ih => exact Nat.lt_trans (hlt _ _ hyz) ih

/-- A way that does not go down to a smaller number goes up, or stays, somewhere on it. -/
theorem exists_le_of_transGen {α : Type} (index : α → Nat) {Below : α → α → Prop} {x y : α}
    (h : TransGen Below x y) : index y < index x ∨
      ∃ u v, ReflTransGen Below x u ∧ Below u v ∧ index u ≤ index v ∧ ReflTransGen Below v y := by
  induction h with
  | single hxy =>
    rcases Nat.lt_or_ge (index _) (index x) with hlt | hge
    · exact .inl hlt
    · exact .inr ⟨x, _, .refl, hxy, hge, .refl⟩
  | @tail y z hxy hyz ih =>
    rcases ih with hlt | ⟨u, v, hxu, huv, hle, hvy⟩
    · rcases Nat.lt_or_ge (index z) (index y) with hlt' | hge
      · exact .inl (Nat.lt_trans hlt' hlt)
      · exact .inr ⟨y, z, hxy.to_reflTransGen, hyz, hge, .refl⟩
    · exact .inr ⟨u, v, hxu, huv, hle, hvy.tail hyz⟩

end Pearl
