import Mathlib.Tactic.Common
import Pearl.SymbolTable.History

/-! # Growth of symbol tables

A step of a history opens a scope, declares a symbol, sets lengths or binds a statement to a scope,
or does two of these one after the other. What all of them preserve holds of every table that was
made by steps. In particular, every symbol that such a table binds to a name is there.
-/

namespace Pearl.SymbolTable

section Preserved

variable {P : SymbolTable → Prop} (hopen : ∀ t parent, P t → P (t.openScope parent).2)
  (hdeclare : ∀ t scope name kind, P t → P (t.declare scope name kind).2)
  (hlengths : ∀ t scope fixed float, P t → P (t.setLengths scope fixed float))
  (hbind : ∀ t stmtScopes, P t → P { t with stmtScopes }) {t : SymbolTable} (ht : P t)
include hopen hdeclare ht

theorem preserved_openOwner (scope : ScopeId) (name : String) (kind : ScopeId → SymbolKind) :
    P (t.openOwner scope name kind).2.2 := by
  have hinner := hopen t scope ht
  exact hdeclare _ scope name _ hinner

include hlengths hbind

/-- A property that each way of growing preserves is preserved by a step. -/
theorem preserved_perform (step : Step) : P (t.perform step).2 := by
  have howner := preserved_openOwner hopen hdeclare ht
  cases step with
  | module name => exact howner root name .module
  | procedure scope name result => exact howner scope name (.procedure · result)
  | task scope name isMain isGlobal => exact howner scope name (.task · isMain isGlobal)
  | «variable» scope name | semaphore scope name | declare scope name =>
    exact hdeclare t scope name _ ht
  | openScope parent => exact hopen t parent ht
  | setLengths scope fixed float => exact hlengths t scope fixed float ht
  | openStatement stmt parent => exact hbind _ _ (hopen t parent ht)

/-- So it holds after any history. -/
theorem preserved_run (history : List Step) : P (t.run history) := by
  induction history generalizing t with
  | nil => exact ht
  | cons step history ih => exact ih (preserved_perform hopen hdeclare hlengths hbind ht step)

end Preserved

variable {t : SymbolTable}

theorem eq_of_scope?_new {defaults : LanguageDefaults} {i : ScopeId} {s : Scope}
    (h : (new defaults).scope? i = some s) : s = { id := root, parent := none } := by
  have hmem : s ∈ (new defaults).scopes := Array.mem_of_getElem? h
  rwa [new, Array.mem_singleton] at hmem

theorem scope?_openScope (parent i : ScopeId) : (t.openScope parent).2.scope? i =
    if i.index = t.scopes.size then some { id := ⟨t.scopes.size⟩, parent := some parent }
    else t.scope? i :=
  Array.getElem?_push

theorem scope?_declare (scope : ScopeId) (name : String) (kind : SymbolKind) (i : ScopeId) :
    (t.declare scope name kind).2.scope? i = if scope.index = i.index
      then (t.scope? i).map (·.bind name ⟨t.symbols.size⟩) else t.scope? i :=
  Array.getElem?_modify

theorem scope?_setLengths (scope : ScopeId) (fixed float : Option Precision) (i : ScopeId) :
    (t.setLengths scope fixed float).scope? i = if scope.index = i.index
      then (t.scope? i).map (·.setLengths fixed float) else t.scope? i :=
  Array.getElem?_modify

/-! ## Symbols that are bound -/

/-- Every symbol that a scope binds to a name is in the table. -/
def Bound (t : SymbolTable) : Prop :=
  ∀ i s, t.scope? i = some s → ∀ b ∈ s.bindings, b.2.index < t.symbols.size

theorem bound_new (defaults : LanguageDefaults) : (new defaults).Bound := by
  intro i s hs b hb
  obtain rfl := eq_of_scope?_new hs
  cases hb

theorem Bound.openScope (h : t.Bound) (parent : ScopeId) : (t.openScope parent).2.Bound := by
  intro i s hs
  rw [scope?_openScope] at hs
  split at hs
  · cases hs
    exact fun b hb => nomatch hb
  · exact h i s hs

theorem Bound.declare (h : t.Bound) (scope : ScopeId) (name : String) (kind : SymbolKind) :
    (t.declare scope name kind).2.Bound := by
  have hsize : (t.declare scope name kind).2.symbols.size = t.symbols.size + 1 := Array.size_push ..
  intro i s hs b hb
  rw [hsize]
  rw [scope?_declare] at hs
  split at hs
  · obtain ⟨s', hs', rfl⟩ := Option.map_eq_some_iff.mp hs
    rcases List.mem_cons.mp hb with rfl | hb
    · exact Nat.lt_succ_self _
    · exact Nat.lt_succ_of_lt (h i s' hs' b hb)
  · exact Nat.lt_succ_of_lt (h i s hs b hb)

theorem Bound.setLengths (h : t.Bound) (scope : ScopeId) (fixed float : Option Precision) :
    (t.setLengths scope fixed float).Bound := by
  intro i s hs
  rw [scope?_setLengths] at hs
  split at hs
  · obtain ⟨s', hs', rfl⟩ := Option.map_eq_some_iff.mp hs
    exact h i s' hs'
  · exact h i s hs

/-- A table that was made by steps knows all symbols that it binds. -/
theorem bound_run (defaults : LanguageDefaults) (history : List Step) :
    ((new defaults).run history).Bound :=
  preserved_run (fun _ parent h => h.openScope parent)
    (fun _ scope name kind h => h.declare scope name kind)
    (fun _ scope fixed float h => h.setLengths scope fixed float) (fun _ _ h => h)
    (bound_new defaults) history

theorem exists_scope?_of_mem_outward {n : Nat} {i : ScopeId} {s : Scope} (h : s ∈ t.outward n i) :
    ∃ j, t.scope? j = some s := by
  induction n generalizing i with
  | zero => cases h
  | succ n ih =>
    unfold outward at h
    cases hi : t.scope? i with
    | none =>
      rw [hi] at h
      cases h
    | some s' =>
      rw [hi] at h
      rcases List.mem_cons.mp h with rfl | h
      · exact ⟨i, hi⟩
      · cases hparent : s'.parent with
        | none =>
          rw [hparent] at h
          cases h
        | some parent =>
          rw [hparent] at h
          exact ih h

section Found

variable (h : t.Bound) {scope : ScopeId} {name : String} {id : SymbolId}
include h

theorem Bound.lt_of_scope {s : Scope} (hs : t.scope? scope = some s)
    (hid : s.lookup name = some id) : id.index < t.symbols.size := by
  obtain ⟨before, after, hbindings, -⟩ := List.lookup_eq_some_iff.mp hid
  exact h scope s hs (name, id) (by rw [hbindings]; exact List.mem_append_cons_self)

theorem Bound.lt_of_lookupHere (hid : t.lookupHere scope name = some id) :
    id.index < t.symbols.size := by
  obtain ⟨s, hs, hname⟩ := Option.bind_eq_some_iff.mp hid
  exact h.lt_of_scope hs hname

theorem Bound.lt_of_lookup (hid : t.lookup scope name = some id) : id.index < t.symbols.size := by
  obtain ⟨s, hs, hname⟩ := List.exists_of_findSome?_eq_some hid
  obtain ⟨j, hj⟩ := exists_scope?_of_mem_outward hs
  exact h.lt_of_scope hj hname

theorem Bound.exists_symbol?_of_lookup (hid : t.lookup scope name = some id) :
    ∃ s, t.symbol? id = some s :=
  ⟨_, Array.getElem?_eq_getElem (h.lt_of_lookup hid)⟩

end Found

end Pearl.SymbolTable
