import Pearl.Proofs.Ty.AtMost
import Pearl.SymbolTable

/-! # Symbol tables that differ in precisions

Two tables with the same scopes, names and kinds of symbols, of which the second has larger
precisions wherever the first has one. They resolve every name to the same symbol, and what the
first says of a precision is at most what the second says.
-/

namespace Pearl

structure LanguageDefaults.AtMost (d d' : LanguageDefaults) : Prop where
  fixedPrecision : d.fixedPrecision ≤ d'.fixedPrecision
  floatPrecision : d.floatPrecision ≤ d'.floatPrecision
  fixedLength : d.fixedLength ≤ d'.fixedLength
  durationRatioPrecision : d.durationRatioPrecision ≤ d'.durationRatioPrecision

/-- The same kind but for the precisions of the declared type. -/
inductive SymbolKind.AtMost : SymbolKind → SymbolKind → Prop
  | module (scope : ScopeId) : AtMost (.module scope) (.module scope)
  | procedure (scope : ScopeId) {result result' : Option Ty}
    (h : Option.Rel Ty.AtMost result result') :
    AtMost (.procedure scope result) (.procedure scope result')
  | task (scope : ScopeId) (isMain isGlobal : Bool) :
    AtMost (.task scope isMain isGlobal) (.task scope isMain isGlobal)
  | variable {ty ty' : Ty} (h : ty.AtMost ty') (inv : Bool) :
    AtMost (.variable ty inv) (.variable ty' inv)
  | semaphore : AtMost .semaphore .semaphore

/-- Symbols of the same kind but for precisions. -/
def Symbol.AtMost (s s' : Symbol) : Prop := s.kind.AtMost s'.kind

/-- The same scope but for its lengths, which are set in the same places. -/
structure Scope.AtMost (s s' : Scope) : Prop where
  parent : s.parent = s'.parent
  lookup : ∀ name, s.lookup name = s'.lookup name
  declared : s.declared = s'.declared
  fixedLength : Option.Rel (· ≤ ·) s.fixedLength s'.fixedLength
  floatLength : Option.Rel (· ≤ ·) s.floatLength s'.floatLength

/-- The same table but for precisions, which are at most those of the second table. -/
structure SymbolTable.AtMost (t t' : SymbolTable) : Prop where
  scopes : List.Forall₂ Scope.AtMost t.scopes.toList t'.scopes.toList
  symbols : List.Forall₂ Symbol.AtMost t.symbols.toList t'.symbols.toList
  stmtScope? : ∀ stmt, t.stmtScope? stmt = t'.stmtScope? stmt
  defaults : t.defaults.AtMost t'.defaults

/-! ## Queries -/

namespace SymbolTable.AtMost

variable {t t' : SymbolTable} (h : t.AtMost t')
include h

theorem scope? (i : ScopeId) : Option.Rel Scope.AtMost (t.scope? i) (t'.scope? i) := by
  unfold SymbolTable.scope?
  rw [← Array.getElem?_toList, ← Array.getElem?_toList]
  exact rel_getElem? h.scopes i.index

theorem symbol? (id : SymbolId) : Option.Rel Symbol.AtMost (t.symbol? id) (t'.symbol? id) := by
  unfold SymbolTable.symbol?
  rw [← Array.getElem?_toList, ← Array.getElem?_toList]
  exact rel_getElem? h.symbols id.index

theorem outward (n : Nat) (i : ScopeId) :
    List.Forall₂ Scope.AtMost (t.outward n i) (t'.outward n i) := by
  induction n generalizing i with
  | zero => exact .nil
  | succ n ih =>
    have hscope := h.scope? i
    unfold SymbolTable.outward
    generalize t.scope? i = s, t'.scope? i = s' at hscope
    cases hscope with
    | none => exact .nil
    | some hs =>
      refine .cons hs ?_
      rw [hs.parent]
      split
      · exact .nil
      · exact ih _

theorem enclosing (i : ScopeId) :
    List.Forall₂ Scope.AtMost (t.enclosing i) (t'.enclosing i) := by
  have hsize : t.scopes.size = t'.scopes.size := h.scopes.length_eq
  unfold SymbolTable.enclosing
  rw [hsize]
  exact h.outward _ i

theorem lookup (i : ScopeId) (name : String) : t.lookup i name = t'.lookup i name := by
  refine rel_eq_iff.mp (rel_findSome? (fun s s' hs => ?_) (h.enclosing i))
  exact rel_eq_iff.mpr (hs.lookup name)

theorem lookupHere (i : ScopeId) (name : String) : t.lookupHere i name = t'.lookupHere i name := by
  have hscope := h.scope? i
  unfold SymbolTable.lookupHere
  generalize t.scope? i = s, t'.scope? i = s' at hscope
  cases hscope with
  | none => rfl
  | some hs => exact hs.lookup name

theorem fixedLength (i : ScopeId) : t.fixedLength i ≤ t'.fixedLength i :=
  rel_getD (rel_findSome? (fun _ _ hs => hs.fixedLength) (h.enclosing i)) h.defaults.fixedPrecision

theorem floatLength (i : ScopeId) : t.floatLength i ≤ t'.floatLength i :=
  rel_getD (rel_findSome? (fun _ _ hs => hs.floatLength) (h.enclosing i)) h.defaults.floatPrecision

theorem isModule (id : SymbolId) : t.isModule id = t'.isModule id := by
  have hkind : Option.Rel SymbolKind.AtMost _ _ := rel_map (h.symbol? id) fun _ _ hs => hs
  unfold SymbolTable.isModule
  generalize (t.symbol? id).map Symbol.kind = kind, (t'.symbol? id).map Symbol.kind = kind' at hkind
  cases hkind with
  | none => rfl
  | some hkind => cases hkind <;> rfl

theorem modules : t.modules = t'.modules := by
  have hscope := h.scope? root
  have hmodule : t.isModule = t'.isModule := funext h.isModule
  unfold SymbolTable.modules
  rw [hmodule]
  generalize t.scope? root = s, t'.scope? root = s' at hscope
  cases hscope with
  | none => rfl
  | some hs =>
    dsimp only
    rw [hs.declared]

end SymbolTable.AtMost

end Pearl
