import Mathlib.Tactic.Common

/-! # Actions in turn

Actions on a store run one after the other up to the first that fails. Where success does not depend
on the store, the outcome of the whole row is that of the first failing action, and a row without
one has the effects of its actions in order.
-/

namespace Pearl

variable {α β σ ε : Type}

/-- An outcome that came about in two steps is good only if both were. -/
theorem bind_eq_ok {γ : Type} {x : Except ε α} {f : α → Except ε γ} {b : γ} :
    x >>= f = .ok b ↔ ∃ a, x = .ok a ∧ f a = .ok b := by
  cases x with
  | error e =>
    constructor
    · intro h
      cases h
    · rintro ⟨a, h, -⟩
      cases h
  | ok a =>
    constructor
    · exact fun h => ⟨a, rfl, h⟩
    · rintro ⟨a', h, h'⟩
      cases h
      exact h'

/-- An outcome that came about in two steps is the fault of the first that failed. -/
theorem bind_eq_error {γ : Type} {x : Except ε α} {f : α → Except ε γ} {e : ε}
    (h : x >>= f = .error e) : x = .error e ∨ ∃ a, x = .ok a ∧ f a = .error e := by
  cases x with
  | error e' =>
    cases h
    exact .inl rfl
  | ok a => exact .inr ⟨a, rfl, h⟩

theorem map_eq_ok {x : Except ε α} {f : α → β} {b : β} :
    x.map f = .ok b ↔ ∃ a, x = .ok a ∧ f a = b := by
  cases x with
  | error e => exact ⟨(nomatch ·), fun ⟨_, h, _⟩ => nomatch h⟩
  | ok a => exact ⟨fun h => ⟨a, rfl, Except.ok.inj h⟩, fun ⟨_, h, hb⟩ => by cases h; rw [← hb]; rfl⟩

theorem map_eq_error {x : Except ε α} {f : α → β} {e : ε} : x.map f = .error e ↔ x = .error e := by
  cases x with
  | error e' => exact ⟨fun h => by cases h; rfl, fun h => by cases h; rfl⟩
  | ok a => exact ⟨(nomatch ·), (nomatch ·)⟩

theorem exists_eq_ok_of_toBool {x : Except ε α} (h : x.toBool = true) : ∃ a, x = .ok a := by
  cases x with
  | error e => cases h
  | ok a => exact ⟨a, rfl⟩

/-- The store of a run is its result if the run was good. -/
theorem map_store_eq_ok {done : Except ε Unit × σ} {s : σ} :
    done.1.map (fun _ => done.2) = .ok s ↔ done = (.ok (), s) := by
  obtain ⟨outcome, s'⟩ := done
  cases outcome with
  | error e => exact ⟨(nomatch ·), (nomatch ·)⟩
  | ok u => exact ⟨fun h => by cases h; rfl, fun h => by cases h; rfl⟩

/-- Run an action for each element in turn, up to the first that fails. -/
def inTurn (act : α → σ → Except ε Unit × σ) : List α → σ → Except ε Unit × σ
  | [], s => (.ok (), s)
  | a :: as, s => match act a s with
    | (.ok _, s) => inTurn act as s
    | (.error e, s) => (.error e, s)

variable {act : α → σ → Except ε Unit × σ}

@[simp] theorem inTurn_nil (s : σ) : inTurn act [] s = (.ok (), s) := rfl

theorem inTurn_cons (a : α) (as : List α) (s : σ) :
    inTurn act (a :: as) s = match act a s with
      | (.ok _, s) => inTurn act as s
      | (.error e, s) => (.error e, s) := rfl

@[simp] theorem inTurn_singleton (a : α) (s : σ) : inTurn act [a] s = act a s := by
  rw [inTurn_cons]
  obtain ⟨outcome, s'⟩ := act a s
  cases outcome <;> rfl

theorem inTurn_append (as bs : List α) (s : σ) :
    inTurn act (as ++ bs) s = match inTurn act as s with
      | (.ok _, s) => inTurn act bs s
      | (.error e, s) => (.error e, s) := by
  induction as generalizing s with
  | nil => rfl
  | cons a as ih =>
    rw [List.cons_append, inTurn_cons, inTurn_cons]
    obtain ⟨outcome, s'⟩ := act a s
    cases outcome with
    | error e => rfl
    | ok u => exact ih s'

/-- An action may be replaced by a row of smaller ones that do the same. -/
theorem inTurn_flatMap {small : β → σ → Except ε Unit × σ} {parts : α → List β} {as : List α}
    (h : ∀ a ∈ as, ∀ s, act a s = inTurn small (parts a) s) (s : σ) :
    inTurn act as s = inTurn small (as.flatMap parts) s := by
  induction as generalizing s with
  | nil => rfl
  | cons a as ih =>
    rw [List.flatMap_cons, inTurn_append, inTurn_cons, h a (List.mem_cons_self ..)]
    obtain ⟨outcome, s'⟩ := inTurn small (parts a) s
    cases outcome with
    | error e => rfl
    | ok u => exact ih (fun b hb => h b (List.mem_cons_of_mem a hb)) s'

section Outcome

variable (outcome : α → Except ε Unit) (effect : α → σ → σ) {as : List α}

/-- A row succeeds if all of its actions do, and then has their effects in order. -/
theorem inTurn_eq_ok_iff (ho : ∀ a ∈ as, ∀ s, (act a s).1 = outcome a)
    (he : ∀ a ∈ as, ∀ s, outcome a = .ok () → (act a s).2 = effect a s) (s s' : σ) :
    inTurn act as s = (.ok (), s') ↔
      (∀ a ∈ as, outcome a = .ok ()) ∧ as.foldl (fun s a => effect a s) s = s' := by
  induction as generalizing s with
  | nil => simp
  | cons a as ih =>
    have hrest := ih (fun b hb => ho b (List.mem_cons_of_mem a hb))
      (fun b hb => he b (List.mem_cons_of_mem a hb))
    have hout := ho a (List.mem_cons_self ..) s
    have heff := he a (List.mem_cons_self ..) s
    rw [inTurn_cons]
    generalize act a s = done at hout heff
    obtain ⟨r, t⟩ := done
    cases r with
    | error e =>
      constructor
      · intro h
        cases h
      · rintro ⟨h, -⟩
        have := h a (List.mem_cons_self ..)
        rw [← hout] at this
        cases this
    | ok u =>
      have ht : t = effect a s := heff hout.symm
      rw [List.forall_mem_cons, List.foldl_cons, ← ht, and_assoc, ← hrest]
      exact ⟨fun h => ⟨hout.symm, h⟩, fun h => h.2⟩

/-- A row fails as its first failing action does. -/
theorem inTurn_eq_error_iff (ho : ∀ a ∈ as, ∀ s, (act a s).1 = outcome a) (s : σ) (e : ε) :
    (inTurn act as s).1 = .error e ↔
      ∃ before a after, as = before ++ a :: after ∧ (∀ b ∈ before, outcome b = .ok ()) ∧
        outcome a = .error e := by
  induction as generalizing s with
  | nil => simp
  | cons a as ih =>
    have hrest := ih fun b hb => ho b (List.mem_cons_of_mem a hb)
    have hout := ho a (List.mem_cons_self ..) s
    rw [inTurn_cons]
    generalize act a s = done at hout
    obtain ⟨r, t⟩ := done
    constructor
    · intro h
      cases r with
      | error e' => exact ⟨[], a, as, rfl, by simp, hout.symm.trans h⟩
      | ok u =>
        obtain ⟨before, b, after, rfl, hb, hf⟩ := (hrest t).mp h
        exact ⟨a :: before, b, after, rfl, List.forall_mem_cons.mpr ⟨hout.symm, hb⟩, hf⟩
    · rintro ⟨before, b, after, hsplit, hb, hf⟩
      cases before with
      | nil =>
        obtain ⟨rfl, rfl⟩ := List.cons.inj hsplit
        have hr : r = .error e := hout.trans hf
        subst hr
        rfl
      | cons b' before =>
        obtain ⟨rfl, rfl⟩ := List.cons.inj hsplit
        have hr : r = .ok () := hout.trans (hb a (List.mem_cons_self ..))
        subst hr
        exact (hrest t).mpr
          ⟨before, b, after, rfl, fun x hx => hb x (List.mem_cons_of_mem a hx), hf⟩

end Outcome

end Pearl
