import Mathlib.Tactic.Common

/-! # Rows of steps

A row of steps is taken from the first to the last, and a condition on a step is read in the state
in which it is taken. What an allowed step preserves holds after a row of them.
-/

namespace Pearl

variable {α σ : Type}

/-- Each step of a row is allowed in the state in which it is taken. -/
def Along (next : σ → α → σ) (Allowed : σ → α → Prop) : σ → List α → Prop
  | _, [] => True
  | s, a :: as => Allowed s a ∧ Along next Allowed (next s a) as

variable {next : σ → α → σ} {Allowed : σ → α → Prop}

instance decidableAlong [∀ s a, Decidable (Allowed s a)] :
    ∀ s as, Decidable (Along next Allowed s as)
  | _, [] => inferInstanceAs (Decidable True)
  | s, a :: as =>
    have : Decidable (Along next Allowed (next s a) as) := decidableAlong (next s a) as
    inferInstanceAs (Decidable (_ ∧ _))

theorem along_concat {s : σ} {as : List α} {a : α} :
    Along next Allowed s (as ++ [a]) ↔ Along next Allowed s as ∧ Allowed (as.foldl next s) a := by
  induction as generalizing s with
  | nil => exact and_comm
  | cons b as ih =>
    show _ ∧ Along next Allowed (next s b) (as ++ [a]) ↔ _
    rw [ih, ← and_assoc]
    rfl

theorem Along.of_append_cons {s : σ} {before after : List α} {a : α}
    (h : Along next Allowed s (before ++ a :: after)) : Allowed (before.foldl next s) a := by
  induction before generalizing s with
  | nil => exact h.1
  | cons b before ih => exact ih h.2

/-- A condition on the steps alone can be read along the row. -/
theorem Along.and_of_forall {P : α → Prop} {s : σ} {as : List α} (h : Along next Allowed s as)
    (hP : ∀ a ∈ as, P a) : Along next (fun s a => Allowed s a ∧ P a) s as := by
  induction as generalizing s with
  | nil => exact trivial
  | cons a as ih =>
    obtain ⟨ha, has⟩ := List.forall_mem_cons.mp hP
    exact ⟨⟨h.1, ha⟩, ih h.2 has⟩

/-- What each allowed step preserves is preserved by a row of them. -/
theorem Along.foldl {P : σ → Prop} (hstep : ∀ s a, P s → Allowed s a → P (next s a)) {s : σ}
    {as : List α} (h : Along next Allowed s as) (hs : P s) : P (as.foldl next s) := by
  induction as generalizing s with
  | nil => exact hs
  | cons a as ih => exact ih h.2 (hstep s a hs h.1)

/-- A place in a row with one more step is the last one or a place in the row. -/
theorem exists_split_concat {P : List α → α → List α → Prop} {as : List α} {a : α} :
    (∃ before x after, as ++ [a] = before ++ x :: after ∧ P before x after) ↔
      P as a [] ∨ ∃ before x after, as = before ++ x :: after ∧ P before x (after ++ [a]) := by
  constructor
  · rintro ⟨before, x, after, hsplit, hP⟩
    rcases List.eq_nil_or_concat after with rfl | ⟨after, y, rfl⟩
    · obtain ⟨rfl, hx⟩ := List.append_inj' hsplit rfl
      cases hx
      exact .inl hP
    · rw [List.concat_eq_append] at hsplit hP
      rw [← List.cons_append, ← List.append_assoc] at hsplit
      obtain ⟨rfl, hy⟩ := List.append_inj' hsplit rfl
      cases hy
      exact .inr ⟨before, x, after, rfl, hP⟩
  · rintro (hP | ⟨before, x, after, rfl, hP⟩)
    · exact ⟨as, a, [], rfl, hP⟩
    · exact ⟨before, x, after ++ [a], by rw [List.append_assoc, List.cons_append], hP⟩

end Pearl
