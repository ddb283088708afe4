import Pearl.Proofs.Levels
import Pearl.Proofs.SymbolTable.Declarations

/-! # Chains of scopes

Outward from a scope there is its parent, the parent of that, and so on. A chain that does not lead
back to a scope on it ends within as many steps as there are scopes, and so do the searches that
follow it. A step may be given a parent that is not there. Once that parent is made it can lead back
to the scope that was opened inside it, and nothing else keeps a chain from ending.
-/

namespace Pearl.SymbolTable

open Relation

variable (t : SymbolTable)

/-- The second scope is the parent of the first. -/
def Outer (i p : ScopeId) : Prop := t.parent? i = some p

/-- Steps outward lead from the first scope to the second. -/
def Outward : ScopeId → ScopeId → Prop := ReflTransGen t.Outer

/-- The scope that is `n` steps outward. -/
def outer? : Nat → ScopeId → Option ScopeId
  | 0, i => some i
  | n + 1, i => (t.parent? i).bind (outer? n)

/-- At most `n` steps outward lead to a scope that is not there, or to none. -/
def EndsWithin (n : Nat) (i : ScopeId) : Prop := ∃ k ≤ n, (t.outer? k i).bind t.scope? = none

/-- The rounds of a search outward from the current scope: it has no result before it ends. -/
def search? {α : Type} (f : Scope → Option α) : Nat → Option ScopeId → Option (Option α)
  | _, none => some none
  | 0, some _ => none
  | n + 1, some i => match t.scope? i with
    | none => some none
    | some s => match f s with
      | some a => some (some a)
      | none => search? f n s.parent

/-- The searches outward from the scope, for a name and for the lengths, end with the answers of the
table within a round for each scope and one more. -/
structure SearchesEnd (i : ScopeId) : Prop where
  lookup : ∀ name,
    t.search? (·.lookup name) (t.scopes.size + 1) (some i) = some (t.lookup i name)
  fixedLength : (t.search? Scope.fixedLength (t.scopes.size + 1) (some i)).map
    (·.getD t.defaults.fixedPrecision) = some (t.fixedLength i)
  floatLength : (t.search? Scope.floatLength (t.scopes.size + 1) (some i)).map
    (·.getD t.defaults.floatPrecision) = some (t.floatLength i)

variable {t} {n : Nat} {i p : ScopeId}

theorem parent?_of_scope? {s : Scope} (h : t.scope? i = some s) : t.parent? i = s.parent := by
  rw [parent?, h]
  rfl

theorem isSome_of_parent? (h : t.parent? i = some p) : (t.scope? i).isSome := by
  obtain ⟨s, hs, -⟩ := Option.bind_eq_some_iff.mp h
  exact Option.isSome_iff_exists.mpr ⟨s, hs⟩

/-! ## Ends -/

theorem endsWithin_zero : t.EndsWithin 0 i ↔ t.scope? i = none := by
  constructor
  · rintro ⟨k, hk, hnone⟩
    obtain rfl := Nat.le_zero.mp hk
    exact hnone
  · exact fun h => ⟨0, Nat.le_refl 0, h⟩

theorem EndsWithin.mono {m : Nat} (h : t.EndsWithin n i) (hnm : n ≤ m) : t.EndsWithin m i := by
  obtain ⟨k, hk, hnone⟩ := h
  exact ⟨k, Nat.le_trans hk hnm, hnone⟩

/-- A chain ends one step later than that of the parent. -/
theorem endsWithin_succ : t.EndsWithin (n + 1) i ↔ ∀ p, t.parent? i = some p →
    t.EndsWithin n p := by
  constructor
  · rintro ⟨k, hk, hnone⟩ p hp
    cases k with
    | zero =>
      have hsome := isSome_of_parent? hp
      rw [show t.scope? i = none from hnone] at hsome
      cases hsome
    | succ k =>
      rw [outer?, hp] at hnone
      exact ⟨k, Nat.le_of_succ_le_succ hk, hnone⟩
  · intro h
    cases hp : t.parent? i with
    | none => exact ⟨1, Nat.succ_le_succ (Nat.zero_le n), by rw [outer?, hp]; rfl⟩
    | some p =>
      obtain ⟨k, hk, hnone⟩ := h p hp
      exact ⟨k + 1, Nat.succ_le_succ hk, by rw [outer?, hp]; exact hnone⟩

theorem EndsWithin.outer (h : t.EndsWithin n i) (hp : t.Outer i p) : t.EndsWithin n p := by
  cases n with
  | zero =>
    have hsome := isSome_of_parent? hp
    rw [endsWithin_zero.mp h] at hsome
    cases hsome
  | succ n => exact (endsWithin_succ.mp h p hp).mono (Nat.le_succ n)

theorem EndsWithin.outward {j : ScopeId} (h : t.EndsWithin n i) (hj : t.Outward i j) :
    t.EndsWithin n j := by
  induction hj with
  | refl => exact h
  | tail _ hjk ih => exact ih.outer hjk

/-- A chain that ends does not lead back to where it starts. -/
theorem EndsWithin.not_transGen (h : t.EndsWithin n i) : ¬TransGen t.Outer i i := by
  intro hcycle
  obtain ⟨p, hip, hpi⟩ := TransGen.head'_iff.mp hcycle
  induction n generalizing i p with
  | zero =>
    have hsome := isSome_of_parent? hip
    rw [endsWithin_zero.mp h] at hsome
    cases hsome
  | succ n ih =>
    have hcycle' : TransGen t.Outer p p := .tail' hpi hip
    obtain ⟨q, hpq, hqp⟩ := TransGen.head'_iff.mp hcycle'
    exact ih (endsWithin_succ.mp h p hip) hcycle' q hpq hqp

/-- A chain that does not lead back to a scope on it has no more scopes than the table. Of the
levels of the induction there is one for each scope on the chain that is there. -/
theorem endsWithin_size (h : ∀ j, t.Outward i j → ¬TransGen t.Outer j j) :
    t.EndsWithin t.scopes.size i := by
  by_cases hi : (t.scope? i).isSome
  · refine level_induction ScopeId.index (fun ⟨_⟩ ⟨_⟩ => congrArg ScopeId.mk)
      (fun j (hj : t.Outward i j ∧ (t.scope? j).isSome) => isSome_scope?.mp hj.2)
      (fun j p hj (hp : t.Outer j p ∧ (t.scope? p).isSome) => ⟨hj.1.tail hp.1, hp.2⟩)
      (fun j hj hcycle => ?_) (motive := t.EndsWithin) (fun n j hj ih => ?_) (Nat.le_refl _)
      ⟨.refl, hi⟩
    · exact h j hj.1 (TransGen.mono (fun _ _ hp => hp.1) j j hcycle)
    · refine endsWithin_succ.mpr fun p hp => ?_
      cases hs : t.scope? p with
      | none => exact (endsWithin_zero.mpr hs).mono (Nat.zero_le n)
      | some s => exact ih p ⟨hp, by rw [hs]; rfl⟩
  · exact (endsWithin_zero.mpr (Option.not_isSome_iff_eq_none.mp hi)).mono (Nat.zero_le _)

theorem EndsWithin.size (h : t.EndsWithin n i) : t.EndsWithin t.scopes.size i :=
  endsWithin_size fun _ hj => (h.outward hj).not_transGen

/-! ## Searches -/

theorem outward_of_none (h : t.scope? i = none) (n : Nat) : t.outward n i = [] := by
  cases n with
  | zero => rfl
  | succ n => rw [outward, h]

theorem outward_succ {s : Scope} (h : t.scope? i = some s) (n : Nat) :
    t.outward (n + 1) i = s :: (t.parent? i).elim [] (t.outward n) := by
  rw [outward, h, parent?_of_scope? h]
  dsimp only
  cases s.parent <;> rfl

theorem findSome?_outward_succ {α : Type} (f : Scope → Option α) (n : Nat) :
    (t.outward (n + 1) i).findSome? f =
      ((t.scope? i).bind f).or ((t.parent? i).bind fun p => (t.outward n p).findSome? f) := by
  cases hs : t.scope? i with
  | none =>
    rw [parent?, outward_of_none hs, hs]
    rfl
  | some s =>
    rw [outward_succ hs, List.findSome?_cons]
    dsimp only [Option.bind_some]
    cases f s with
    | some a => rfl
    | none => cases t.parent? i <;> rfl

/-- Beyond its end, a chain has no more scopes. -/
theorem EndsWithin.outward_eq {m : Nat} (h : t.EndsWithin n i) (hnm : n ≤ m) :
    t.outward m i = t.outward n i := by
  induction n generalizing i m with
  | zero => rw [outward_of_none (endsWithin_zero.mp h), outward_of_none (endsWithin_zero.mp h)]
  | succ n ih =>
    obtain ⟨m, rfl⟩ := Nat.exists_eq_add_of_le' hnm
    cases hs : t.scope? i with
    | none => rw [outward_of_none hs, outward_of_none hs]
    | some s =>
      rw [← Nat.add_assoc, outward_succ hs, outward_succ hs]
      cases hp : t.parent? i with
      | none => rfl
      | some p => exact congrArg (s :: ·) (ih (endsWithin_succ.mp h p hp) (Nat.le_add_left n m))

/-- A search outward ends one round after the chain does, with what is found first. -/
theorem EndsWithin.search?_eq {α : Type} (h : t.EndsWithin n i) (f : Scope → Option α) :
    t.search? f (n + 1) (some i) = some ((t.outward n i).findSome? f) := by
  induction n generalizing i with
  | zero =>
    rw [search?, endsWithin_zero.mp h]
    rfl
  | succ n ih =>
    cases hs : t.scope? i with
    | none =>
      rw [search?, hs, outward_of_none hs]
      rfl
    | some s =>
      rw [search?, hs, outward_succ hs, parent?_of_scope? hs, List.findSome?_cons]
      dsimp only
      cases f s with
      | some a => rfl
      | none =>
        cases hp : s.parent with
        | none => rfl
        | some p => exact ih (endsWithin_succ.mp h p ((parent?_of_scope? hs).trans hp))

theorem EndsWithin.searchesEnd (h : t.EndsWithin n i) : t.SearchesEnd i where
  lookup name := h.size.search?_eq (·.lookup name)
  fixedLength := by
    rw [h.size.search?_eq Scope.fixedLength]
    rfl
  floatLength := by
    rw [h.size.search?_eq Scope.floatLength]
    rfl

/-- A search for what no scope has goes on for as long as the chain does. -/
theorem endsWithin_of_search? {α : Type} {f : Scope → Option α}
    (hf : ∀ j s, t.scope? j = some s → f s = none) {a : Option α}
    (h : t.search? f n (some i) = some a) : t.EndsWithin n i := by
  induction n generalizing i with
  | zero => cases h
  | succ n ih =>
    refine endsWithin_succ.mpr fun p hp => ?_
    obtain ⟨s, hs⟩ := Option.isSome_iff_exists.mp (isSome_of_parent? hp)
    rw [search?, hs] at h
    dsimp only at h
    rw [hf i s hs, ← parent?_of_scope? hs, hp] at h
    exact ih h

/-- A search goes through a scope, and then through those around its parent. -/
theorem EndsWithin.findSome?_enclosing {α : Type} (h : t.EndsWithin n i) (f : Scope → Option α) :
    (t.enclosing i).findSome? f =
      ((t.scope? i).bind f).or ((t.parent? i).bind fun p => (t.enclosing p).findSome? f) := by
  have hmore : t.enclosing i = t.outward (t.scopes.size + 1) i :=
    (h.size.outward_eq (Nat.le_succ _)).symm
  rw [hmore]
  exact findSome?_outward_succ f t.scopes.size

/-! ## Parents that are not there yet -/

section Run

variable (defaults : LanguageDefaults) (history : List Step)

/-- A step was given a parent that was not there, steps outward lead from the scope to the one that
the step opened, and they lead there from that parent too. -/
def LedBack (i : ScopeId) : Prop :=
  ∃ before step after p j, history = before ++ step :: after ∧ step.parent? = some p ∧
    ((new defaults).run before).scope? p = none ∧
    (((new defaults).run before).perform step).1.scope = some j ∧
    ((new defaults).run history).Outward i j ∧ ((new defaults).run history).Outward p j

variable {defaults history}

/-- A scope whose number is not above that of its parent was opened before the parent was there. -/
theorem exists_step_of_le {j : ScopeId} (hp : ((new defaults).run history).parent? j = some p)
    (hle : j.index ≤ p.index) : ∃ before step after, history = before ++ step :: after ∧
      step.parent? = some p ∧ ((new defaults).run before).scope? p = none ∧
      (((new defaults).run before).perform step).1.scope = some j := by
  obtain ⟨before, step, after, hsplit, hparent, hmade⟩ := parent?_run_iff.mp hp
  refine ⟨before, step, after, hsplit, hparent, ?_, hmade⟩
  rw [scope_perform, hparent] at hmade
  cases hmade
  exact Array.getElem?_eq_none hle

/-- Numbers cannot fall all the way around a cycle of parents, and where they do not, a parent was
given before it was there. -/
theorem endsWithin_size_iff :
    ((new defaults).run history).EndsWithin ((new defaults).run history).scopes.size i ↔
      ¬LedBack defaults history i := by
  constructor
  · rintro hends ⟨before, step, after, p, j, hsplit, hparent, -, hmade, hij, hpj⟩
    have hjp : ((new defaults).run history).Outer j p :=
      parent?_run_iff.mpr ⟨before, step, after, hsplit, hparent, hmade⟩
    exact (hends.outward hij).not_transGen (.head' hjp hpj)
  · refine fun hback => endsWithin_size fun x hix hcycle => hback ?_
    rcases exists_le_of_transGen ScopeId.index hcycle with hlt | ⟨j, p, hxj, hjp, hle, hpx⟩
    · exact absurd hlt (Nat.lt_irrefl x.index)
    · obtain ⟨before, step, after, hsplit, hparent, hnone, hmade⟩ := exists_step_of_le hjp hle
      exact ⟨before, step, after, p, j, hsplit, hparent, hnone, hmade, hix.trans hxj, hpx.trans hxj⟩

variable (defaults history) in
/-- Each parent that a step of the history is given is there by then, or is not there after the
history either. -/
def ParentsInTime : Prop :=
  Along (fun t step => (t.perform step).2) (fun t step => ∀ p ∈ step.parent?,
    (t.scope? p).isSome ∨ ((new defaults).run history).scope? p = none) (new defaults) history

theorem ParentsInTime.not_ledBack (h : ParentsInTime defaults history) :
    ¬LedBack defaults history i := by
  rintro ⟨before, step, after, p, j, hsplit, hparent, hnone, hmade, -, hpj⟩
  have hjp : ((new defaults).run history).parent? j = some p :=
    parent?_run_iff.mpr ⟨before, step, after, hsplit, hparent, hmade⟩
  have hsome : (((new defaults).run history).scope? p).isSome := by
    rcases hpj.cases_head with rfl | ⟨q, hpq, -⟩
    · exact isSome_of_parent? hjp
    · exact isSome_of_parent? hpq
  unfold ParentsInTime at h
  generalize (new defaults).run history = t at h hsome
  subst hsplit
  rcases h.of_append_cons p hparent with hthere | hnever
  · rw [show List.foldl _ (new defaults) before = (new defaults).run before from rfl, hnone]
      at hthere
    cases hthere
  · rw [hnever] at hsome
    cases hsome

/-- Whatever scopes the steps of a history are given, a chain of scopes ends within as many steps as
there are scopes, unless it is led back by a parent that was not there when it was given. If parents
are given in time there is no such chain. Where a chain ends, the searches for a name and for the
lengths end with the answers of the table, and where it does not, a search for a name that is
declared nowhere does not end. -/
theorem chain_ends_iff_not_led_back (defaults : LanguageDefaults) (history : List Step)
    (i : ScopeId) :
    let t := (new defaults).run history
    (t.EndsWithin t.scopes.size i ↔ ¬LedBack defaults history i) ∧
      (ParentsInTime defaults history → t.EndsWithin t.scopes.size i) ∧
      (t.EndsWithin t.scopes.size i → t.SearchesEnd i) ∧
      (¬t.EndsWithin t.scopes.size i → ∀ name, (∀ j, t.lookupHere j name = none) →
        ∀ n, t.search? (·.lookup name) n (some i) = none) := by
  intro t
  refine ⟨endsWithin_size_iff, fun h => endsWithin_size_iff.mpr h.not_ledBack,
    fun h => h.searchesEnd, ?_⟩
  intro h name hname n
  have hf (j : ScopeId) (s : Scope) (hs : t.scope? j = some s) : s.lookup name = none := by
    have hj := hname j
    rw [lookupHere, hs] at hj
    exact hj
  cases hresult : t.search? (·.lookup name) n (some i) with
  | none => rfl
  | some a => exact absurd (endsWithin_of_search? hf hresult).size h

/-- A scope inside one that is never made, beside a module with a block. -/
theorem chain_ends_iff_not_led_back_missing :
    let history : List Step := [.openScope ⟨7⟩, .module "m", .openStatement ⟨0⟩ ⟨2⟩]
    let t := (new {}).run history
    ParentsInTime {} history ∧ t.EndsWithin t.scopes.size ⟨1⟩ ∧ t.SearchesEnd ⟨1⟩ := by
  intro history t
  have hparents : ParentsInTime {} history := by
    unfold ParentsInTime
    decide
  obtain ⟨-, hends, hsearch, -⟩ := chain_ends_iff_not_led_back {} history ⟨1⟩
  exact ⟨hparents, hends hparents, hsearch (hends hparents)⟩

/-- A scope that is opened inside the scope that it will be: its chain does not end, nor does a
search. -/
theorem opened_inside_itself :
    let t := (new {}).run [.openScope ⟨1⟩]
    t.scopes.size = 2 ∧ (∀ n, ¬t.EndsWithin n ⟨1⟩) ∧
      ∀ n name, t.search? (·.lookup name) n (some ⟨1⟩) = none := by
  intro t
  have hback : ∀ n, ¬t.EndsWithin n ⟨1⟩ := fun n h =>
    h.not_transGen (.single (show t.parent? ⟨1⟩ = some ⟨1⟩ from rfl))
  refine ⟨rfl, hback, fun n name => ?_⟩
  induction n with
  | zero => rfl
  | succ n ih => exact ih

end Run

end Pearl.SymbolTable
