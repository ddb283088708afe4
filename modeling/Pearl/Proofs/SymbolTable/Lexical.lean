import Pearl.Proofs.SymbolTable.Chain

/-! # Lexical scoping

In a table that was made by steps on scopes that were there, a name stands for the latest
declaration in the innermost enclosing scope that declares it. A scope is opened after the one
around it, so that the argument goes outward by induction on the number of the scope, for any search
(`findSome?_enclosing_eq_some_iff`), and `lookupHere_run_iff` says what is found in one scope.
-/

namespace Pearl.SymbolTable

open Relation

section

variable (defaults : LanguageDefaults) (history : List Step) (name : String)

/-- The second scope is the first one, going outward from the other, that has the property. -/
inductive Nearest (P : ScopeId → Prop) : ScopeId → ScopeId → Prop
  | here {i : ScopeId} (h : P i) : Nearest P i i
  | outward {i p r : ScopeId} (h : ¬P i) (hp : Opened defaults history p i) (hr : Nearest P p r) :
    Nearest P i r

/-- The second scope is the first one, going outward from the other, in which the history declares
the name. -/
def Innermost : ScopeId → ScopeId → Prop :=
  Nearest defaults history (Declares history · name)

/-- The second scope encloses the first, or is the first itself. -/
def Encloses : ScopeId → ScopeId → Prop := ReflTransGen fun i p => Opened defaults history p i

end

variable {defaults : LanguageDefaults} {history : List Step} {name : String} {i r : ScopeId}
  {P : ScopeId → Prop}

theorem Nearest.holds (h : Nearest defaults history P i r) : P r := by
  induction h with
  | here h => exact h
  | outward _ _ _ ih => exact ih

theorem Nearest.encloses (h : Nearest defaults history P i r) : Encloses defaults history i r := by
  induction h with
  | here _ => exact .refl
  | outward _ hp _ ih => exact .head hp ih

/-- If an enclosing scope has the property, one of them is the nearest. -/
theorem Encloses.exists_nearest (h : Encloses defaults history i r) (hr : P r) :
    ∃ r, Nearest defaults history P i r := by
  induction h using ReflTransGen.head_induction_on with
  | refl => exact ⟨r, .here hr⟩
  | @head i p hp _ ih =>
    obtain ⟨r', hr'⟩ := ih
    by_cases hi : P i
    · exact ⟨i, .here hi⟩
    · exact ⟨r', .outward hi hp hr'⟩

namespace ScopesThere

variable (h : ScopesThere defaults history)
include h

theorem endsWithin (i : ScopeId) : ((new defaults).run history).EndsWithin (i.index + 1) i := by
  induction hn : i.index using Nat.strongRecOn generalizing i with
  | ind n ih =>
    refine endsWithin_succ.mpr fun p hp => ?_
    have hlt : p.index < n := hn ▸ h.parent_lt hp
    exact (ih p.index hlt p rfl).mono hlt

/-- A search outward finds what the nearest scope has that has anything. -/
theorem findSome?_enclosing_eq_some_iff {α : Type} {f : Scope → Option α} {a : α} :
    (((new defaults).run history).enclosing i).findSome? f = some a ↔
      ∃ r, Nearest defaults history
          (fun r => ((((new defaults).run history).scope? r).bind f).isSome) i r ∧
        (((new defaults).run history).scope? r).bind f = some a := by
  induction hn : i.index using Nat.strongRecOn generalizing i with
  | ind n ih =>
    rw [(h.endsWithin i).findSome?_enclosing f]
    cases hi : (((new defaults).run history).scope? i).bind f with
    | some b =>
      rw [Option.some_or]
      constructor
      · exact fun hb => ⟨i, .here (by rw [hi]; rfl), hi.trans hb⟩
      · rintro ⟨r, hr, ha⟩
        cases hr with
        | here _ => exact hi.symm.trans ha
        | outward hnone _ _ => exact absurd (by rw [hi]; rfl) hnone
    | none =>
      have hnone : ¬((((new defaults).run history).scope? i).bind f).isSome := by
        rw [hi]
        exact Bool.false_ne_true
      rw [Option.none_or, Option.bind_eq_some_iff]
      constructor
      · rintro ⟨p, hp, ha⟩
        obtain ⟨r, hr, hra⟩ := (ih p.index (hn ▸ h.parent_lt hp) rfl).mp ha
        exact ⟨r, .outward hnone (parent?_run_iff.mp hp) hr, hra⟩
      · rintro ⟨r, hr, hra⟩
        cases hr with
        | here hsome => exact absurd hsome hnone
        | @outward _ p _ _ hp hr =>
          have hp := parent?_run_iff.mpr hp
          exact ⟨p, hp, (ih p.index (hn ▸ h.parent_lt hp) rfl).mpr ⟨r, hr, hra⟩⟩

/-- What is found is the latest declaration in the innermost scope that declares the name. -/
theorem lookup_eq_some_iff {id : SymbolId} : ((new defaults).run history).lookup i name = some id ↔
    ∃ r, Innermost defaults history name i r ∧ Latest defaults history r name id := by
  have hP : (fun r => (((new defaults).run history).lookupHere r name).isSome = true) =
      (Declares history · name) :=
    funext fun r => propext (isSome_lookupHere_run_iff h)
  refine h.findSome?_enclosing_eq_some_iff.trans (exists_congr fun r => ?_)
  rw [Innermost, ← hP]
  exact and_congr_right fun _ => lookupHere_run_iff h

theorem exists_lookup_iff : (∃ id, ((new defaults).run history).lookup i name = some id) ↔
    ∃ r, Innermost defaults history name i r := by
  constructor
  · rintro ⟨id, hid⟩
    obtain ⟨r, hr, -⟩ := h.lookup_eq_some_iff.mp hid
    exact ⟨r, hr⟩
  · rintro ⟨r, hr⟩
    obtain ⟨id, hid⟩ := Option.isSome_iff_exists.mp ((isSome_lookupHere_run_iff h).mpr hr.holds)
    exact ⟨id, h.lookup_eq_some_iff.mpr ⟨r, hr, (lookupHere_run_iff h).mp hid⟩⟩

theorem lookup_eq_none_iff : ((new defaults).run history).lookup i name = none ↔
    ∀ r, Encloses defaults history i r → ¬Declares history r name := by
  rw [← Option.not_isSome_iff_eq_none, Option.isSome_iff_exists, h.exists_lookup_iff]
  constructor
  · exact fun hnone r hr hdecl => hnone (hr.exists_nearest hdecl)
  · rintro hnone ⟨r, hr⟩
    exact hnone r hr.encloses hr.holds

end ScopesThere

theorem run_append (t : SymbolTable) (before after : List Step) :
    t.run (before ++ after) = (t.run before).run after :=
  List.foldl_append

/-- The symbol of a declaration has its name and scope. -/
theorem Latest.exists_symbol? {id : SymbolId} (h : Latest defaults history r name id) :
    ∃ s, ((new defaults).run history).symbol? id = some s ∧ s.name = name ∧ s.declaredIn = r := by
  obtain ⟨before, step, after, rfl, hdecl, hid, -⟩ := h
  obtain ⟨s, hs, hname, hscope⟩ := exists_symbol?_perform hdecl hid
  refine ⟨s, ?_, hname, hscope⟩
  rw [run_append]
  exact symbol?_run_of_some hs after

/-- Names are scoped lexically. After any history of steps that were given scopes that were there,
each scope has the parent inside which it was opened, which has a smaller number. A name that is
looked up is found exactly if an enclosing scope ever declared it, and what is found is the latest
declaration in the innermost of these, which is a symbol of that name and scope. No step changed a
symbol that was declared before. -/
theorem lookup_lexical {defaults : LanguageDefaults} {history : List Step}
    (h : ScopesThere defaults history) :
    let t := (new defaults).run history
    (∀ i p, t.parent? i = some p ↔ Opened defaults history p i) ∧
      (∀ i p, t.parent? i = some p → p.index < i.index) ∧
      (∀ i name id, t.lookup i name = some id ↔
        ∃ r, Innermost defaults history name i r ∧ Latest defaults history r name id) ∧
      (∀ i name, (∃ id, t.lookup i name = some id) ↔ ∃ r, Innermost defaults history name i r) ∧
      (∀ i name, t.lookup i name = none ↔
        ∀ r, Encloses defaults history i r → ¬Declares history r name) ∧
      (∀ r name id, Latest defaults history r name id →
        ∃ s, t.symbol? id = some s ∧ s.name = name ∧ s.declaredIn = r) ∧
      ∀ before after, history = before ++ after → ∀ id s,
        ((new defaults).run before).symbol? id = some s → t.symbol? id = some s := by
  intro t
  refine ⟨fun i p => parent?_run_iff, fun i p => h.parent_lt, fun i name id => h.lookup_eq_some_iff,
    fun i name => h.exists_lookup_iff, fun i name => h.lookup_eq_none_iff,
    fun r name id hlatest => hlatest.exists_symbol?, ?_⟩
  rintro before after rfl id s hs
  show ((new defaults).run (before ++ after)).symbol? id = some s
  rw [run_append]
  exact symbol?_run_of_some hs after

/-- A module declares `x`, a procedure in it declares `x` twice and has a block, and then the module
declares `x` once more: the block sees the second declaration of the procedure. -/
theorem lookup_lexical_shadowed :
    let history : List Step := [.module "m", .variable ⟨1⟩ "x" (.fixed 7) false,
      .procedure ⟨1⟩ "p" none, .variable ⟨2⟩ "x" .clock false, .semaphore ⟨2⟩ "x",
      .openStatement ⟨0⟩ ⟨2⟩, .variable ⟨1⟩ "x" (.float 24) true]
    ScopesThere {} history ∧
      (∃ r, Innermost {} history "x" ⟨3⟩ r ∧ Latest {} history r "x" ⟨4⟩) ∧
      ∀ r, Encloses {} history ⟨3⟩ r → ¬Declares history r "y" := by
  intro history
  have hthere : ScopesThere {} history := by decide
  obtain ⟨-, -, hsome, -, hnone, -, -⟩ := lookup_lexical hthere
  exact ⟨hthere, (hsome ⟨3⟩ "x" ⟨4⟩).mp (by decide), (hnone ⟨3⟩ "y").mp (by decide)⟩

end Pearl.SymbolTable
