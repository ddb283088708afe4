import Pearl.Proofs.SymbolTable.Lexical

/-! # Default lengths

The default length of a scope is the last one that a `LENGTH` clause gave to the nearest scope,
going outward, that was ever given one, and that of the language if there is none. A clause that
gives no length of a form leaves it as it was. The lengths of one form depend on nothing but where
scopes were opened and which lengths of that form were given: not on the lengths of the other form,
and not on declarations.
-/

namespace Pearl.SymbolTable

open Relation

/-- The numbers that have a default length. -/
inductive LengthForm where
  | fixed
  | float
deriving DecidableEq, Repr

namespace LengthForm

/-- That of two lengths which is for numbers of the form. -/
def pick {α : Type} : LengthForm → α → α → α
  | .fixed, x, _ => x
  | .float, _, y => y

/-- The length that a scope has of its own. -/
def ofScope (form : LengthForm) (s : Scope) : Option Precision :=
  form.pick s.fixedLength s.floatLength

/-- The length of the language. -/
def ofLanguage (form : LengthForm) (d : LanguageDefaults) : Precision :=
  form.pick d.fixedPrecision d.floatPrecision

end LengthForm

variable (t : SymbolTable) (form : LengthForm)

/-- The default length in a scope. -/
def lengthIn (i : ScopeId) : Precision := form.pick (t.fixedLength i) (t.floatLength i)

/-- The length that was given to a scope. -/
def lengthHere (i : ScopeId) : Option Precision := (t.scope? i).bind form.ofScope

/-- The length that a step gives to a scope. -/
def Step.length? (i : ScopeId) : Step → Option Precision
  | .setLengths j fixed float => if j = i then form.pick fixed float else none
  | .module _ | .procedure .. | .task .. | .variable .. | .semaphore .. | .declare .. | .openScope _
  | .openStatement .. => none

/-- The lengths that the steps of a history gave to a scope, in turn. -/
def lengthsGiven (history : List Step) (i : ScopeId) : List Precision :=
  history.filterMap (Step.length? form i)

variable {t form} {i : ScopeId}

theorem lengthIn_eq :
    t.lengthIn form i =
      ((t.enclosing i).findSome? form.ofScope).getD (form.ofLanguage t.defaults) := by
  cases form <;> rfl

/-! ## Steps -/

theorem lengthHere_openScope (parent : ScopeId) :
    (t.openScope parent).2.lengthHere form i = t.lengthHere form i := by
  unfold lengthHere
  rw [scope?_openScope]
  split
  · next hi =>
    rw [scope?, hi, Array.getElem?_eq_none (Nat.le_refl _)]
    cases form <;> rfl
  · rfl

theorem lengthHere_declare (scope : ScopeId) (name : String) (kind : SymbolKind) :
    (t.declare scope name kind).2.lengthHere form i = t.lengthHere form i := by
  unfold lengthHere
  rw [scope?_declare]
  cases t.scope? i <;> split <;> rfl

theorem lengthHere_setLengths (scope : ScopeId) (fixed float : Option Precision) :
    (t.setLengths scope fixed float).lengthHere form i =
      (if i.index < t.scopes.size then if scope =
        i then form.pick fixed float else none else none).or
        (t.lengthHere form i) := by
  have hscope (s : Scope) : form.ofScope (s.setLengths fixed float) =
      (form.pick fixed float).or (form.ofScope s) := by
    cases form with
    | fixed => cases fixed <;> rfl
    | float => cases float <;> rfl
  unfold lengthHere
  rw [scope?_setLengths]
  cases hs : t.scope? i with
  | none =>
    rw [if_neg (c := i.index < _) (by rw [← isSome_scope?, hs]; exact Bool.false_ne_true)]
    split <;> rfl
  | some s =>
    rw [if_pos (c := i.index < _) (isSome_scope?.mp (by rw [hs]; rfl))]
    by_cases hi : scope = i
    · rw [if_pos (congrArg ScopeId.index hi), if_pos hi]
      exact hscope s
    · rw [if_neg fun hindex => hi (congrArg ScopeId.mk hindex), if_neg hi]
      rfl

/-- A step gives a length to a scope that is there, and else leaves all as they were. -/
theorem lengthHere_perform (step : Step) : (t.perform step).2.lengthHere form i =
    (if i.index < t.scopes.size then step.length? form i else none).or (t.lengthHere form i) := by
  have howner (scope : ScopeId) (name : String) (kind : ScopeId → SymbolKind) :
      (t.openOwner scope name kind).2.2.lengthHere form i = t.lengthHere form i :=
    (lengthHere_declare scope name _).trans (lengthHere_openScope scope)
  have hnone : (if i.index < t.scopes.size then (none : Option Precision) else none).or
      (t.lengthHere form i) = t.lengthHere form i := by
    rw [ite_self, Option.none_or]
  cases step with
  | module name => exact (howner root name .module).trans hnone.symm
  | procedure scope name result => exact (howner scope name (.procedure · result)).trans hnone.symm
  | task scope name isMain isGlobal =>
    exact (howner scope name (.task · isMain isGlobal)).trans hnone.symm
  | «variable» scope name | semaphore scope name | declare scope name =>
    exact (lengthHere_declare scope name _).trans hnone.symm
  | openScope parent | openStatement stmt parent =>
    exact (lengthHere_openScope parent).trans hnone.symm
  | setLengths scope fixed float => exact lengthHere_setLengths scope fixed float

theorem defaults_perform (step : Step) : (t.perform step).2.defaults = t.defaults := by
  cases step <;> rfl

/-! ## Histories -/

section Run

variable {defaults : LanguageDefaults} {history : List Step}

theorem defaults_run : ((new defaults).run history).defaults = defaults :=
  preserved_run (P := fun t => t.defaults = defaults) (fun _ _ h => h) (fun _ _ _ _ h => h)
    (fun _ _ _ _ h => h) (fun _ _ h => h) rfl history

theorem Step.scope?_of_length? {step : Step} {g : Precision} (h : step.length? form i = some g) :
    step.scope? = some i := by
  cases step with
  | setLengths scope fixed float =>
    obtain ⟨rfl, -⟩ := Option.ite_none_right_eq_some.mp h
    rfl
  | _ => cases h

namespace ScopesThere

variable (h : ScopesThere defaults history)
include h

/-- What a scope has was given to it by the last step that gave it a length. -/
theorem lengthHere_eq :
    ((new defaults).run history).lengthHere form i = (lengthsGiven form history i).getLast? := by
  induction history using List.reverseRecOn with
  | nil =>
    show (new defaults).lengthHere form i = none
    unfold lengthHere
    cases hs : (new defaults).scope? i with
    | none => rfl
    | some s =>
      obtain rfl := eq_of_scope?_new hs
      cases form <;> rfl
  | append_singleton history step ih =>
    obtain ⟨hbefore, -⟩ := along_concat.mp h
    rw [run_concat, lengthHere_perform, ih hbefore, lengthsGiven, lengthsGiven,
      List.filterMap_append, List.getLast?_append]
    congr 1
    cases hlength : step.length? form i with
    | none =>
      rw [List.filterMap_cons_none hlength, ite_self]
      rfl
    | some g =>
      have hi := h.isSome_scope? rfl (.inr (Step.scope?_of_length? hlength))
      rw [List.filterMap_cons_some hlength, if_pos (SymbolTable.isSome_scope?.mp hi)]
      rfl

/-- The length that is found is the last one given to the nearest scope that was ever given one. -/
theorem findSome?_ofScope_eq_some_iff {g : Precision} :
    (((new defaults).run history).enclosing i).findSome? form.ofScope = some g ↔
      ∃ r, Nearest defaults history (lengthsGiven form history · ≠ []) i r ∧
        (lengthsGiven form history r).getLast? = some g := by
  have hgiven (r : ScopeId) : (((new defaults).run history).scope? r).bind form.ofScope =
      (lengthsGiven form history r).getLast? :=
    h.lengthHere_eq
  have hP : (fun r => ((((new defaults).run history).scope? r).bind form.ofScope).isSome = true) =
      (lengthsGiven form history · ≠ []) := by
    funext r
    rw [hgiven, List.getLast?_isSome]
  rw [h.findSome?_enclosing_eq_some_iff, hP]
  simp only [hgiven]

theorem findSome?_ofScope_eq_none_iff :
    (((new defaults).run history).enclosing i).findSome? form.ofScope = none ↔
      ∀ r, Encloses defaults history i r → lengthsGiven form history r = [] := by
  rw [← Option.not_isSome_iff_eq_none, Option.isSome_iff_exists]
  constructor
  · intro hnone r hr
    by_contra hgiven
    obtain ⟨r', hr'⟩ := hr.exists_nearest (P := (lengthsGiven form history · ≠ [])) hgiven
    have hlast := List.getLast?_eq_some_getLast hr'.holds
    exact hnone ⟨_, h.findSome?_ofScope_eq_some_iff.mpr ⟨r', hr', hlast⟩⟩
  · rintro hnone ⟨g, hg⟩
    obtain ⟨r, hr, -⟩ := h.findSome?_ofScope_eq_some_iff.mp hg
    exact hr.holds (hnone r hr.encloses)

end ScopesThere

end Run

/-! ## What the lengths depend on -/

section Bearing

variable (form) in
/-- The part of a step that bears on the lengths of the form. -/
def Step.bearing? : Step → Option Step
  | .module _ => some (.openScope root)
  | .procedure scope _ _ | .task scope _ _ _ | .openScope scope | .openStatement _ scope =>
    some (.openScope scope)
  | .setLengths scope fixed float => (form.pick fixed float).map fun g =>
    .setLengths scope (form.pick (some g) none) (form.pick none (some g))
  | .variable .. | .semaphore .. | .declare .. => none

variable (form) in
/-- The same scopes, with the same lengths of the form. -/
structure SameLengths (t t' : SymbolTable) : Prop where
  size : t.scopes.size = t'.scopes.size
  parent? : ∀ i, t.parent? i = t'.parent? i
  lengthHere : ∀ i, t.lengthHere form i = t'.lengthHere form i
  defaults : t.defaults = t'.defaults

namespace Step

variable {step step' : Step}

/-- The part of a step that bears on the lengths does to them what the step does. -/
theorem of_bearing?_eq_some (h : step.bearing? form = some step') :
    step.parent? = step'.parent? ∧ ∀ i, step.length? form i = step'.length? form i := by
  cases step with
  | module | procedure | task | openScope | openStatement =>
    cases h
    exact ⟨rfl, fun _ => rfl⟩
  | setLengths scope fixed float =>
    obtain ⟨g, hg, rfl⟩ := Option.map_eq_some_iff.mp h
    refine ⟨rfl, fun i => ?_⟩
    rw [length?, hg]
    cases form <;> rfl
  | «variable» | semaphore | declare => cases h

theorem of_bearing?_eq_none (h : step.bearing? form = none) :
    step.parent? = none ∧ ∀ i, step.length? form i = none := by
  cases step with
  | setLengths scope fixed float =>
    refine ⟨rfl, fun i => ?_⟩
    rw [length?, Option.map_eq_none_iff.mp h, ite_self]
  | «variable» | semaphore | declare => exact ⟨rfl, fun _ => rfl⟩
  | module | procedure | task | openScope | openStatement => cases h

end Step

namespace SameLengths

variable {t' : SymbolTable} {step step' : Step} (h : SameLengths form t t')
include h

/-- The lengths stay the same under steps that open scopes in the same place and give the same
lengths. -/
theorem perform (hparent : step.parent? = step'.parent?)
    (hlength : ∀ i, step.length? form i = step'.length? form i) :
    SameLengths form (t.perform step).2 (t'.perform step').2 where
  size := by rw [size_perform, size_perform, h.size, hparent]
  parent? i := by rw [parent?_perform, parent?_perform, h.size, h.parent? i, hparent]
  lengthHere i := by rw [lengthHere_perform, lengthHere_perform, h.size, h.lengthHere i, hlength i]
  defaults := by rw [defaults_perform, defaults_perform, h.defaults]

theorem perform_left (hparent : step.parent? = none) (hlength : ∀ i, step.length? form i = none) :
    SameLengths form (t.perform step).2 t' where
  size := by rw [size_perform, hparent]; exact h.size
  parent? i := by
    rw [parent?_perform, hparent, ← h.parent? i]
    split
    · next hi => exact (parent?_of_size_le (Nat.le_of_eq hi.symm)).symm
    · rfl
  lengthHere i := by rw [lengthHere_perform, hlength i, ite_self, Option.none_or, h.lengthHere i]
  defaults := by rw [defaults_perform, h.defaults]

/-- A history can be cut down to what bears on the lengths. -/
theorem run (history : List Step) :
    SameLengths form (t.run history) (t'.run (history.filterMap (Step.bearing? form))) := by
  induction history generalizing t t' with
  | nil => exact h
  | cons step history ih =>
    cases hstep : step.bearing? form with
    | none =>
      obtain ⟨hparent, hlength⟩ := Step.of_bearing?_eq_none hstep
      rw [List.filterMap_cons_none hstep]
      exact ih (h.perform_left hparent hlength)
    | some step' =>
      obtain ⟨hparent, hlength⟩ := Step.of_bearing?_eq_some hstep
      rw [List.filterMap_cons_some hstep]
      exact ih (h.perform hparent hlength)

theorem findSome?_outward (n : Nat) (i : ScopeId) :
    (t.outward n i).findSome? form.ofScope = (t'.outward n i).findSome? form.ofScope := by
  induction n generalizing i with
  | zero => rfl
  | succ n ih =>
    have hhere : (t.scope? i).bind form.ofScope = (t'.scope? i).bind form.ofScope := h.lengthHere i
    rw [findSome?_outward_succ, findSome?_outward_succ, hhere, h.parent? i, funext ih]

theorem lengthIn (i : ScopeId) : t.lengthIn form i = t'.lengthIn form i := by
  rw [lengthIn_eq, lengthIn_eq, enclosing, enclosing, h.size, h.findSome?_outward, h.defaults]

end SameLengths

theorem SameLengths.refl (t : SymbolTable) : SameLengths form t t :=
  ⟨rfl, fun _ => rfl, fun _ => rfl, rfl⟩

end Bearing

/-- Default lengths follow the clauses. After any history of steps that were given scopes that were
there, the length in a scope is the last one that was given to the nearest scope, going outward,
that was ever given one, and that of the language if no enclosing scope was. It is the same after
every history that opens the same scopes and gives the same lengths of the form, whatever is
declared and whichever lengths of the other form are given. -/
theorem lengthIn_follows_clauses {defaults : LanguageDefaults} {history : List Step}
    (h : ScopesThere defaults history) (form : LengthForm) (i : ScopeId) :
    let t := (new defaults).run history
    let given := lengthsGiven form history
    (∀ g, t.lengthIn form i = g ↔
      (∃ r, Nearest defaults history (given · ≠ []) i r ∧ (given r).getLast? = some g) ∨
        (∀ r, Encloses defaults history i r → given r = []) ∧ form.ofLanguage defaults = g) ∧
      ∀ other, other.filterMap (Step.bearing? form) = history.filterMap (Step.bearing? form) →
        ((new defaults).run other).lengthIn form i = t.lengthIn form i := by
  intro t given
  constructor
  · intro g
    rw [lengthIn_eq, defaults_run, Option.getD_eq_iff, h.findSome?_ofScope_eq_some_iff,
      h.findSome?_ofScope_eq_none_iff]
  · intro other hother
    rw [((SameLengths.refl (new defaults)).run other).lengthIn, hother]
    exact (((SameLengths.refl (new defaults)).run history).lengthIn i).symm

/-- A module has a length for fixed numbers, which is given again after a procedure with a block was
opened inside it. A clause of the block and one of the module say nothing of it. -/
theorem lengthIn_follows_clauses_given_again :
    let history : List Step :=
      [.module "m", .setLengths ⟨1⟩ (some 15) none, .procedure ⟨1⟩ "p" none,
      .openStatement ⟨0⟩ ⟨2⟩, .variable ⟨3⟩ "x" .clock false, .setLengths ⟨3⟩ none (some 53),
      .setLengths ⟨1⟩ (some 63) none, .setLengths ⟨1⟩ none none]
    let other : List Step :=
      [.module "m", .setLengths ⟨1⟩ (some 15) none, .openScope ⟨1⟩, .openScope ⟨2⟩,
      .setLengths ⟨1⟩ (some 63) (some 24)]
    ScopesThere {} history ∧
      (∃ r, Nearest {} history (lengthsGiven .fixed history · ≠ []) ⟨3⟩ r ∧
        (lengthsGiven .fixed history r).getLast? = some 63) ∧
      ((new {}).run other).fixedLength ⟨3⟩ = ((new {}).run history).fixedLength ⟨3⟩ := by
  intro history other
  have hthere : ScopesThere {} history := by decide
  obtain ⟨hlength, hother⟩ := lengthIn_follows_clauses hthere .fixed ⟨3⟩
  refine ⟨hthere, ?_, hother other rfl⟩
  exact ((hlength 63).mp rfl).resolve_right fun h => absurd h.2 (by decide)

end Pearl.SymbolTable
