import Mathlib.Data.List.Induction
import Pearl.Proofs.Along
import Pearl.Proofs.SymbolTable.Growth

/-! # What a history opens and declares

A step opens one scope at most, inside a scope that it is given, and declares one name at most. The
parent of a scope is the one inside which a step opened it. As long as each step is given scopes
that are there, a scope binds a name to the symbol that the last declaration of the name in that
scope made. The argument is on the last step of a history: `parent?_perform`,
`lookupHere_perform_self` and `lookupHere_perform_of_ne` say what it changes.
-/

namespace Pearl.SymbolTable

namespace Step

/-- The scope that a step is given. -/
def scope? : Step → Option ScopeId
  | .module _ => none
  | .procedure scope _ _ | .task scope _ _ _ | .variable scope _ _ _ | .semaphore scope _
  | .declare scope _ _ | .openScope scope | .setLengths scope _ _ | .openStatement _ scope =>
    some scope

/-- The scope inside which a step opens another. -/
def parent? : Step → Option ScopeId
  | .module _ => some root
  | .procedure scope _ _ | .task scope _ _ _ | .openScope scope | .openStatement _ scope =>
    some scope
  | .variable .. | .semaphore .. | .declare .. | .setLengths .. => none

/-- The name that a step declares, and the scope in which it does so. -/
def declared? : Step → Option (ScopeId × String)
  | .module name => some (root, name)
  | .procedure scope name _ | .task scope name _ _ | .variable scope name _ _
  | .semaphore scope name | .declare scope name _ => some (scope, name)
  | .openScope _ | .setLengths .. | .openStatement .. => none

theorem parent?_eq_some {step : Step} {p : ScopeId} (h : step.parent? = some p) :
    p = root ∨ step.scope? = some p := by
  cases step with
  | module name => exact .inl (Option.some.inj h).symm
  | procedure | task | openScope | openStatement => exact .inr h
  | «variable» | semaphore | declare | setLengths => cases h

theorem declared?_eq_some {step : Step} {i : ScopeId} {name : String}
    (h : step.declared? = some (i, name)) : i = root ∨ step.scope? = some i := by
  cases step with
  | module name' => exact .inl (congrArg Prod.fst (Option.some.inj h)).symm
  | procedure | task | «variable» | semaphore | declare =>
    exact .inr (congrArg (Option.map Prod.fst) h)
  | openScope | setLengths | openStatement => cases h

end Step

variable {t : SymbolTable}

@[simp] theorem isSome_scope? {i : ScopeId} : (t.scope? i).isSome ↔ i.index < t.scopes.size := by
  simp [scope?]

theorem parent?_of_size_le {i : ScopeId} (h : t.scopes.size ≤ i.index) : t.parent? i = none := by
  unfold parent? scope?
  rw [Array.getElem?_eq_none h]
  rfl

theorem run_concat (history : List Step) (step : Step) :
    t.run (history ++ [step]) = ((t.run history).perform step).2 :=
  List.foldl_append

/-! ## Steps -/

section Perform

theorem scope_perform (step : Step) :
    (t.perform step).1.scope = step.parent?.map fun _ => ⟨t.scopes.size⟩ := by
  cases step <;> rfl

theorem symbol_perform (step : Step) :
    (t.perform step).1.symbol = step.declared?.map fun _ => ⟨t.symbols.size⟩ := by
  cases step <;> rfl

theorem size_perform (step : Step) :
    (t.perform step).2.scopes.size = t.scopes.size + step.parent?.toList.length := by
  cases step with
  | module | procedure | task => exact Array.size_modify.trans (Array.size_push _)
  | «variable» | semaphore | declare | setLengths => exact Array.size_modify
  | openScope | openStatement => exact Array.size_push _

theorem parent?_openScope (parent i : ScopeId) : (t.openScope parent).2.parent? i =
    if i.index = t.scopes.size then some parent else t.parent? i := by
  unfold parent?
  rw [scope?_openScope]
  split <;> rfl

theorem parent?_declare (scope : ScopeId) (name : String) (kind : SymbolKind) (i : ScopeId) :
    (t.declare scope name kind).2.parent? i = t.parent? i := by
  unfold parent?
  rw [scope?_declare]
  cases t.scope? i <;> split <;> rfl

theorem parent?_setLengths (scope : ScopeId) (fixed float : Option Precision) (i : ScopeId) :
    (t.setLengths scope fixed float).parent? i = t.parent? i := by
  unfold parent?
  rw [scope?_setLengths]
  cases t.scope? i <;> split <;> rfl

/-- A step gives a parent to the next scope alone. -/
theorem parent?_perform (step : Step) (i : ScopeId) : (t.perform step).2.parent? i =
    if i.index = t.scopes.size then step.parent? else t.parent? i := by
  have howner (scope : ScopeId) (name : String) (kind : ScopeId → SymbolKind) :
      (t.openOwner scope name kind).2.2.parent? i =
        if i.index = t.scopes.size then some scope else t.parent? i :=
    (parent?_declare scope name _ i).trans (parent?_openScope scope i)
  have hkept : t.parent? i = if i.index = t.scopes.size then none else t.parent? i := by
    split
    · next hi => exact parent?_of_size_le (Nat.le_of_eq hi.symm)
    · rfl
  cases step with
  | module name => exact howner root name .module
  | procedure scope name result => exact howner scope name (.procedure · result)
  | task scope name isMain isGlobal => exact howner scope name (.task · isMain isGlobal)
  | «variable» scope name | semaphore scope name | declare scope name =>
    exact (parent?_declare scope name _ i).trans hkept
  | openScope parent | openStatement stmt parent => exact parent?_openScope parent i
  | setLengths scope fixed float => exact (parent?_setLengths scope fixed float i).trans hkept

theorem isSome_scope?_openScope {i : ScopeId} (h : (t.scope? i).isSome) (parent : ScopeId) :
    ((t.openScope parent).2.scope? i).isSome := by
  rw [scope?_openScope]
  split
  · rfl
  · exact h

/-- A scope that is opened binds no name. -/
theorem lookupHere_openScope (parent i : ScopeId) (name : String) :
    (t.openScope parent).2.lookupHere i name = t.lookupHere i name := by
  unfold lookupHere
  rw [scope?_openScope]
  split
  · next hi =>
    rw [scope?, hi, Array.getElem?_eq_none (Nat.le_refl _)]
    rfl
  · rfl

theorem lookupHere_setLengths (scope : ScopeId) (fixed float : Option Precision) (i : ScopeId)
    (name : String) : (t.setLengths scope fixed float).lookupHere i name = t.lookupHere i name := by
  unfold lookupHere
  rw [scope?_setLengths]
  cases t.scope? i <;> split <;> rfl

theorem lookupHere_declare_self {i : ScopeId} (hi : (t.scope? i).isSome) (name : String)
    (kind : SymbolKind) : (t.declare i name kind).2.lookupHere i name = some ⟨t.symbols.size⟩ := by
  obtain ⟨s, hs⟩ := Option.isSome_iff_exists.mp hi
  unfold lookupHere
  rw [scope?_declare, if_pos rfl, hs]
  exact s.lookup_bind_self name _

theorem lookupHere_declare_of_ne {scope i : ScopeId} {other name : String}
    (h : (scope, other) ≠ (i, name)) (kind : SymbolKind) :
    (t.declare scope other kind).2.lookupHere i name = t.lookupHere i name := by
  unfold lookupHere
  rw [scope?_declare]
  split
  · next hi =>
    obtain rfl : scope = i := congrArg ScopeId.mk hi
    have hname : name ≠ other := by
      rintro rfl
      exact h rfl
    cases t.scope? scope with
    | none => rfl
    | some s => exact s.lookup_bind_of_ne _ hname
  · rfl

theorem lookupHere_new (defaults : LanguageDefaults) (i : ScopeId) (name : String) :
    (new defaults).lookupHere i name = none := by
  unfold lookupHere
  cases hs : (new defaults).scope? i with
  | none => rfl
  | some s =>
    obtain rfl := eq_of_scope?_new hs
    rfl

/-- A declaration in a scope that is there binds the name to the symbol it makes. -/
theorem lookupHere_perform_self {step : Step} {i : ScopeId} {name : String}
    (h : step.declared? = some (i, name)) (hi : (t.scope? i).isSome) :
    (t.perform step).2.lookupHere i name = (t.perform step).1.symbol := by
  rw [symbol_perform, h]
  cases step with
  | module | procedure | task =>
    cases h
    exact lookupHere_declare_self (isSome_scope?_openScope hi _) name _
  | «variable» | semaphore | declare =>
    cases h
    exact lookupHere_declare_self hi name _
  | openScope | setLengths | openStatement => cases h

/-- A step changes what a name is bound to only where it declares the name. -/
theorem lookupHere_perform_of_ne {step : Step} {i : ScopeId} {name : String}
    (h : step.declared? ≠ some (i, name)) :
    (t.perform step).2.lookupHere i name = t.lookupHere i name := by
  have howner (scope : ScopeId) (other : String) (kind : ScopeId → SymbolKind)
      (h : (scope, other) ≠ (i, name)) :
      (t.openOwner scope other kind).2.2.lookupHere i name = t.lookupHere i name :=
    (lookupHere_declare_of_ne h _).trans (lookupHere_openScope scope i name)
  have hne {declared : ScopeId × String} (h : some declared ≠ some (i, name)) :
      declared ≠ (i, name) :=
    fun heq => h (congrArg some heq)
  cases step with
  | module other => exact howner root other .module (hne h)
  | procedure scope other result => exact howner scope other (.procedure · result) (hne h)
  | task scope other isMain isGlobal => exact howner scope other (.task · isMain isGlobal) (hne h)
  | «variable» scope other | semaphore scope other | declare scope other =>
    exact lookupHere_declare_of_ne (hne h) _
  | openScope parent | openStatement stmt parent => exact lookupHere_openScope parent i name
  | setLengths scope fixed float => exact lookupHere_setLengths scope fixed float i name

/-- The symbol that a declaration makes has the name and the scope of the declaration. -/
theorem exists_symbol?_perform {step : Step} {i : ScopeId} {name : String} {id : SymbolId}
    (h : step.declared? = some (i, name)) (hid : (t.perform step).1.symbol = some id) :
    ∃ s, (t.perform step).2.symbol? id = some s ∧ s.name = name ∧ s.declaredIn = i := by
  have hdeclare (t : SymbolTable) (kind : SymbolKind) :
      ∃ s, (t.declare i name kind).2.symbol? ⟨t.symbols.size⟩ = some s ∧ s.name = name ∧
        s.declaredIn = i :=
    ⟨⟨name, kind, i⟩, Array.getElem?_push_size, rfl, rfl⟩
  rw [symbol_perform, h] at hid
  cases hid
  cases step with
  | module | procedure | task =>
    cases h
    exact hdeclare (t.openScope _).2 _
  | «variable» | semaphore | declare =>
    cases h
    exact hdeclare t _
  | openScope | setLengths | openStatement => cases h

theorem symbol?_declare_of_some {id : SymbolId} {s : Symbol} (h : t.symbol? id = some s)
    (scope : ScopeId) (name : String) (kind : SymbolKind) :
    (t.declare scope name kind).2.symbol? id = some s := by
  obtain ⟨hlt, -⟩ := Array.getElem?_eq_some_iff.mp h
  have hpush : (t.declare scope name kind).2.symbol? id = t.symbol? id :=
    Array.getElem?_push_lt hlt |>.trans (Array.getElem?_eq_getElem hlt).symm
  rw [hpush, h]

/-- A symbol that is declared stays as it is. -/
theorem symbol?_run_of_some {id : SymbolId} {s : Symbol} (h : t.symbol? id = some s)
    (history : List Step) : (t.run history).symbol? id = some s :=
  preserved_run (P := fun t => t.symbol? id = some s) (fun _ _ h => h)
    (fun _ scope name kind h => symbol?_declare_of_some h scope name kind) (fun _ _ _ _ h => h)
    (fun _ _ h => h) h history

end Perform

/-! ## Histories -/

section Run

variable (defaults : LanguageDefaults) (history : List Step)

/-- A step of the history opened the second scope inside the first. -/
def Opened (p i : ScopeId) : Prop :=
  ∃ before step after, history = before ++ step :: after ∧ step.parent? = some p ∧
    (((new defaults).run before).perform step).1.scope = some i

/-- A step of the history declared the name in the scope. -/
def Declares (i : ScopeId) (name : String) : Prop :=
  ∃ step ∈ history, step.declared? = some (i, name)

/-- The last step of the history that declared the name in the scope made the symbol. -/
def Latest (i : ScopeId) (name : String) (id : SymbolId) : Prop :=
  ∃ before step after, history = before ++ step :: after ∧ step.declared? = some (i, name) ∧
    (((new defaults).run before).perform step).1.symbol = some id ∧ ¬Declares after i name

/-- Each scope that a step of the history is given is there when the step is taken. -/
def ScopesThere : Prop :=
  Along (fun t step => (t.perform step).2) (fun t step => ∀ i ∈ step.scope?, (t.scope? i).isSome)
    (new defaults) history

instance : Decidable (ScopesThere defaults history) := inferInstanceAs (Decidable (Along ..))

variable {defaults history}

theorem declares_concat {step : Step} {i : ScopeId} {name : String} :
    Declares (history ++ [step]) i name ↔ Declares history i name ∨
    step.declared? = some (i, name) := by
  unfold Declares
  simp only [List.mem_append, List.mem_singleton, or_and_right, exists_or, exists_eq_left]

/-- The parent of a scope is the one inside which a step opened it. -/
theorem parent?_run_iff {p i : ScopeId} :
    ((new defaults).run history).parent? i = some p ↔ Opened defaults history p i := by
  induction history using List.reverseRecOn with
  | nil =>
    have hnew : (new defaults).parent? i = none := by
      rcases Nat.eq_zero_or_pos i.index with hi | hi
      · unfold parent? scope?
        rw [hi]
        rfl
      · exact parent?_of_size_le hi
    refine iff_of_false (fun h => ?_) fun ⟨before, step, after, hsplit, _⟩ => ?_
    · exact Option.some_ne_none p (h.symm.trans hnew)
    · exact List.append_ne_nil_of_right_ne_nil before (List.cons_ne_nil step after) hsplit.symm
  | append_singleton history step ih =>
    rw [run_concat, parent?_perform]
    refine Iff.trans ?_ exists_split_concat.symm
    refine Iff.trans ?_ (or_congr_right ih)
    rw [scope_perform]
    constructor
    · intro h
      split at h
      · next hi => exact .inl ⟨h, by rw [h, ← hi]; rfl⟩
      · exact .inr h
    · rintro (⟨h, hmade⟩ | h)
      · rw [h] at hmade
        cases hmade
        rw [if_pos rfl, h]
      · have hlt : i.index < ((new defaults).run history).scopes.size := by
          by_contra hge
          rw [parent?_of_size_le (Nat.le_of_not_lt hge)] at h
          cases h
        rw [if_neg (Nat.ne_of_lt hlt), h]

theorem isSome_scope?_root : (((new defaults).run history).scope? root).isSome := by
  refine preserved_run (P := fun t => (t.scope? root).isSome) (fun t parent h => ?_)
    (fun t scope name kind h => ?_) (fun t scope fixed float h => ?_) (fun _ _ h => h) rfl history
  · exact isSome_scope?_openScope h parent
  · rw [scope?_declare]
    split
    · exact Option.isSome_map.trans h
    · exact h
  · rw [scope?_setLengths]
    split
    · exact Option.isSome_map.trans h
    · exact h

namespace ScopesThere

variable (h : ScopesThere defaults history)
include h

/-- What is there when a step is taken, and so outside of what the step opens. -/
theorem isSome_scope? {before after : List Step} {step : Step}
    (hsplit : history = before ++ step :: after) {i : ScopeId}
    (hi : i = root ∨ step.scope? = some i) : (((new defaults).run before).scope? i).isSome := by
  rcases hi with rfl | hi
  · exact isSome_scope?_root
  · subst hsplit
    exact h.of_append_cons i hi

/-- A scope is opened after the one around it. -/
theorem parent_lt {p i : ScopeId} (hp : ((new defaults).run history).parent? i = some p) :
    p.index < i.index := by
  obtain ⟨before, step, after, hsplit, hparent, hmade⟩ := parent?_run_iff.mp hp
  have hthere := h.isSome_scope? hsplit (Step.parent?_eq_some hparent)
  rw [scope_perform, hparent] at hmade
  cases hmade
  exact SymbolTable.isSome_scope?.mp hthere

end ScopesThere

/-- A scope binds a name to the symbol that the last declaration of the name in that scope made. -/
theorem lookupHere_run_iff (h : ScopesThere defaults history) {i : ScopeId} {name : String}
    {id : SymbolId} :
    ((new defaults).run history).lookupHere i name = some id ↔
    Latest defaults history i name id := by
  induction history using List.reverseRecOn with
  | nil =>
    refine iff_of_false (fun h => ?_) fun ⟨before, step, after, hsplit, _⟩ => ?_
    · rw [run, List.foldl_nil, lookupHere_new] at h
      cases h
    · exact List.append_ne_nil_of_right_ne_nil before (List.cons_ne_nil step after) hsplit.symm
  | append_singleton history step ih =>
    obtain ⟨hbefore, -⟩ := along_concat.mp h
    rw [run_concat]
    refine Iff.trans ?_ exists_split_concat.symm
    by_cases hdecl : step.declared? = some (i, name)
    · have hi := h.isSome_scope? rfl (Step.declared?_eq_some hdecl)
      rw [lookupHere_perform_self hdecl hi]
      constructor
      · exact fun hid => .inl ⟨hdecl, hid, fun ⟨_, hmem, _⟩ => List.not_mem_nil hmem⟩
      · rintro (⟨-, hid, -⟩ | ⟨_, _, _, _, _, _, hlast⟩)
        · exact hid
        · exact absurd (declares_concat.mpr (.inr hdecl)) hlast
    · rw [lookupHere_perform_of_ne hdecl, ih hbefore]
      constructor
      · rintro ⟨before, x, after, hsplit, hx, hid, hlast⟩
        refine .inr ⟨before, x, after, hsplit, hx, hid, fun hafter => ?_⟩
        exact (declares_concat.mp hafter).elim hlast hdecl
      · rintro (⟨hx, -⟩ | ⟨before, x, after, hsplit, hx, hid, hlast⟩)
        · exact absurd hx hdecl
        · exact ⟨before, x, after, hsplit, hx, hid,
            fun hafter => hlast (declares_concat.mpr (.inl hafter))⟩

/-- A scope binds the names that were declared in it. -/
theorem isSome_lookupHere_run_iff (h : ScopesThere defaults history) {i : ScopeId} {name : String} :
    (((new defaults).run history).lookupHere i name).isSome ↔ Declares history i name := by
  induction history using List.reverseRecOn with
  | nil =>
    rw [run, List.foldl_nil, lookupHere_new]
    exact iff_of_false Bool.false_ne_true fun ⟨_, hmem, _⟩ => List.not_mem_nil hmem
  | append_singleton history step ih =>
    obtain ⟨hbefore, -⟩ := along_concat.mp h
    rw [run_concat, declares_concat]
    by_cases hdecl : step.declared? = some (i, name)
    · have hi := h.isSome_scope? rfl (Step.declared?_eq_some hdecl)
      rw [lookupHere_perform_self hdecl hi, symbol_perform, hdecl]
      exact iff_of_true rfl (.inr rfl)
    · rw [lookupHere_perform_of_ne hdecl, ih hbefore, or_iff_left hdecl]

end Run

end Pearl.SymbolTable
