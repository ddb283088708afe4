import Mathlib.Data.List.Forall2
import Mathlib.Data.Option.Basic
import Pearl.Proofs.InTurn

/-! # Outcomes that go together

Two computations on related inputs go together when both are good, with related results, or both
have the same fault. Some faults of the second are given up: whatever the first comes to then, goes
with them.
-/

namespace Pearl

variable {α α' β β' σ σ' ε ε' : Type}

inductive Alike (lost : ε → Prop) (R : α → α' → Prop) : Except ε α → Except ε α' → Prop
  | ok {a : α} {a' : α'} (h : R a a') : Alike lost R (.ok a) (.ok a')
  | error (e : ε) : Alike lost R (.error e) (.error e)
  | lost (x : Except ε α) {e : ε} (h : lost e) : Alike lost R x (.error e)

namespace Alike

variable {lost : ε → Prop} {R : α → α' → Prop} {S : β → β' → Prop} {x : Except ε α}
  {y : Except ε α'}

theorem of_eq {R : α → α → Prop} (hR : ∀ a, R a a) {x y : Except ε α} (h : x = y) :
    Alike lost R x y := by
  subst h
  cases x with
  | error e => exact .error e
  | ok a => exact .ok (hR a)

theorem bind {f : α → Except ε β} {g : α' → Except ε β'} (h : Alike lost R x y)
    (hfg : ∀ a a', R a a' → Alike lost S (f a) (g a')) : Alike lost S (x >>= f) (y >>= g) := by
  cases h with
  | ok h => exact hfg _ _ h
  | error e => exact .error e
  | lost x h => exact .lost _ h

theorem map {f : α → β} {g : α' → β'} (h : Alike lost R x y)
    (hfg : ∀ a a', R a a' → S (f a) (g a')) : Alike lost S (x.map f) (y.map g) := by
  cases h with
  | ok h => exact .ok (hfg _ _ h)
  | error e => exact .error e
  | lost x h => exact .lost _ h

theorem mapError {lost' : ε' → Prop} {f : ε → ε'} (h : Alike lost R x y)
    (hf : ∀ e, lost e → lost' (f e)) : Alike lost' R (x.mapError f) (y.mapError f) := by
  cases h with
  | ok h => exact .ok h
  | error e => exact .error (f e)
  | lost x h => exact .lost _ (hf _ h)

end Alike

/-! ## Rows of actions -/

/-- The store after a good run. -/
def keep (done : Except ε Unit × σ) : Except ε σ := done.1.map fun _ => done.2

theorem keep_inTurn_cons {act : α → σ → Except ε Unit × σ} (a : α) (as : List α) (s : σ) :
    keep (inTurn act (a :: as) s) = keep (act a s) >>= fun s => keep (inTurn act as s) := by
  rw [inTurn_cons]
  obtain ⟨outcome, s'⟩ := act a s
  cases outcome <;> rfl

/-- Two rows go together if their actions do, one by one, on all related stores. -/
theorem inTurn_alike {lost : ε → Prop} {A : α → α' → Prop} {T : σ → σ' → Prop}
    {act : α → σ → Except ε Unit × σ} {act' : α' → σ' → Except ε Unit × σ'} {as : List α}
    {as' : List α'} (has : List.Forall₂ A as as')
    (hact : ∀ a a' s s', A a a' → T s s' → Alike lost T (keep (act a s)) (keep (act' a' s')))
    {s : σ} {s' : σ'} (hs : T s s') :
    Alike lost T (keep (inTurn act as s)) (keep (inTurn act' as' s')) := by
  induction has generalizing s s' with
  | nil => exact .ok hs
  | cons ha _ ih =>
    rw [keep_inTurn_cons, keep_inTurn_cons]
    exact (hact _ _ s s' ha hs).bind fun _ _ hs => ih hs

/-- Two rows do the same if their actions do, one by one. -/
theorem inTurn_congr {A : α → α' → Prop} {act : α → σ → Except ε Unit × σ}
    {act' : α' → σ → Except ε Unit × σ} {as : List α} {as' : List α'} (has : List.Forall₂ A as as')
    (hact : ∀ a a' s, A a a' → act a s = act' a' s) (s : σ) :
    inTurn act as s = inTurn act' as' s := by
  induction has generalizing s with
  | nil => rfl
  | @cons a a' _ _ ha _ ih =>
    rw [inTurn_cons, inTurn_cons, hact a a' s ha]
    obtain ⟨outcome, s'⟩ := act' a' s
    cases outcome with
    | error e => rfl
    | ok u => exact ih s'

/-! ## Options and lists -/

/-- Related lists have related elements at each index. -/
theorem rel_getElem? {R : α → β → Prop} {as : List α} {bs : List β} (h : List.Forall₂ R as bs)
    (i : Nat) : Option.Rel R as[i]? bs[i]? := by
  induction h generalizing i with
  | nil => exact .none
  | cons hab _ ih =>
    cases i with
    | zero => exact .some hab
    | succ i => exact ih i

theorem rel_findSome? {R : α → β → Prop} {S : α' → β' → Prop} {f : α → Option α'}
    {g : β → Option β'} (hfg : ∀ a b, R a b → Option.Rel S (f a) (g b)) {as : List α} {bs : List β}
    (h : List.Forall₂ R as bs) : Option.Rel S (as.findSome? f) (bs.findSome? g) := by
  induction h with
  | nil => exact .none
  | @cons a b as bs hab _ ih =>
    have hfound := hfg a b hab
    rw [List.findSome?_cons, List.findSome?_cons]
    generalize f a = found, g b = found' at hfound
    cases hfound with
    | none => exact ih
    | some h => exact .some h

theorem rel_eq_iff {a? b? : Option α} : Option.Rel (· = ·) a? b? ↔ a? = b? := by
  constructor
  · rintro (h | _)
    · rw [h]
    · rfl
  · rintro rfl
    cases a? with
    | none => exact .none
    | some a => exact .some rfl

theorem rel_map {R : α → β → Prop} {S : α' → β' → Prop} {a? : Option α} {b? : Option β}
    {f : α → α'} {g : β → β'} (h : Option.Rel R a? b?) (hfg : ∀ a b, R a b → S (f a) (g b)) :
    Option.Rel S (a?.map f) (b?.map g) := by
  cases h with
  | none => exact .none
  | some h => exact .some (hfg _ _ h)

theorem rel_getD {R : α → β → Prop} {a? : Option α} {b? : Option β} {a : α} {b : β}
    (h : Option.Rel R a? b?) (hab : R a b) : R (a?.getD a) (b?.getD b) := by
  cases h with
  | none => exact hab
  | some h => exact h

theorem rel_bind {R : α → β → Prop} {S : α' → β' → Prop} {a? : Option α} {b? : Option β}
    {f : α → Option α'} {g : β → Option β'} (h : Option.Rel R a? b?)
    (hfg : ∀ a b, R a b → Option.Rel S (f a) (g b)) : Option.Rel S (a?.bind f) (b?.bind g) := by
  cases h with
  | none => exact .none
  | some h => exact hfg _ _ h

end Pearl
