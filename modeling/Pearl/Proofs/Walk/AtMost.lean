import Pearl.Proofs.SymbolTable.AtMost
import Pearl.Proofs.Walk.Related

/-! # Agendas over tables that differ in precisions

Over two tables that differ in precisions alone, a traversal has the same things to do in the same
order, and finds or misses the same scopes and variables. Only the type of a variable that is
initialised differs.
-/

namespace Pearl

/-- The same place but for the precisions of an initialised variable. -/
inductive ExprPlace.AtMost : ExprPlace → ExprPlace → Prop
  | plain : AtMost .plain .plain
  | clause (clause : Clause) : AtMost (.clause clause) (.clause clause)
  | assigned (location : Location) (target : String) :
    AtMost (.assigned location target) (.assigned location target)
  | initial {ty ty' : Ty} (h : ty.AtMost ty') : AtMost (.initial ty) (.initial ty')

/-- The same errand but for the place of what is visited. -/
inductive Errand.AtMost : Errand → Errand → Prop
  | resolve (r : Resolution) : AtMost (.resolve r) (.resolve r)
  | visit (scope : ScopeId) {place place' : ExprPlace} (h : place.AtMost place') (x : Expr) :
    AtMost (.visit scope place x) (.visit scope place' x)
  | missing : AtMost .missing .missing

theorem ExprPlace.Related.atMost {named : String → Prop} {place place' : ExprPlace}
    (h : Related named Ty.AtMost place place') : place.AtMost place' := by
  cases h with
  | plain => exact .plain
  | clause clause => exact .clause clause
  | assigned location => exact .assigned location _
  | initial hty => exact .initial hty

theorem Errand.Related.atMost {here : ScopeId → Prop} {named : String → Prop} {e e' : Errand}
    (h : Related here named Ty.AtMost e e') : e.AtMost e' := by
  cases h with
  | resolve => exact .resolve _
  | visit _ hplace => exact .visit _ hplace.atMost _
  | missing => exact .missing

/-- The type of a symbol that is a variable. -/
theorem SymbolKind.AtMost.variableTy? {kind kind' : Option SymbolKind} :
    Option.Rel SymbolKind.AtMost kind kind' → Option.Rel Ty.AtMost
      (match kind with
        | some (.variable ty _) => some ty
        | _ => none)
      (match kind' with
        | some (.variable ty _) => some ty
        | _ => none) := by
  rintro (h | _)
  · cases h with
    | «variable» h => exact .some h
    | module | procedure | task | semaphore => exact .none
  · exact .none

theorem Owner.scopeOf?_eq (owner : Owner) {kind kind' : SymbolKind} (h : kind.AtMost kind') :
    owner.scopeOf? kind = owner.scopeOf? kind' := by
  cases owner <;> cases h <;> rfl

namespace SymbolTable.AtMost

variable {t t' : SymbolTable}

/-! ## What is found -/

section Found

variable (h : t.AtMost t')
include h

theorem lookupHere? (scope : ScopeId) (name : String) :
    Option.Rel Symbol.AtMost (((Context.new t).inside scope).lookupHere? name)
      (((Context.new t').inside scope).lookupHere? name) :=
  rel_bind (rel_eq_iff.mpr (h.lookupHere scope name)) fun id _ hid => hid ▸ h.symbol? id

theorem lookup? (scope : ScopeId) (name : String) :
    Option.Rel Symbol.AtMost (((Context.new t).inside scope).lookup? name)
      (((Context.new t').inside scope).lookup? name) :=
  rel_bind (rel_eq_iff.mpr (h.lookup scope name)) fun id _ hid => hid ▸ h.symbol? id

theorem variableHere? (scope : ScopeId) (name : String) :
    Option.Rel Ty.AtMost (t.variableHere? scope name) (t'.variableHere? scope name) :=
  SymbolKind.AtMost.variableTy? (rel_map (h.lookupHere? scope name) fun _ _ hs => hs)

theorem visibleVariable? (scope : ScopeId) (name : String) :
    Option.Rel Ty.AtMost (t.visibleVariable? scope name) (t'.visibleVariable? scope name) :=
  SymbolKind.AtMost.variableTy? (rel_map (h.lookup? scope name) fun _ _ hs => hs)

theorem ownerScope (scope : ScopeId) (owner : Owner) (name : String) (location : Location) :
    t.ownerScope scope owner name location = t'.ownerScope scope owner name location := by
  have hscope := rel_eq_iff.mp (rel_bind (h.lookupHere? scope name)
    fun s s' hs => rel_eq_iff.mpr (owner.scopeOf?_eq hs))
  simp only [SymbolTable.ownerScope, Context.ownerScope, hscope]

theorem stmtScope (stmt : StmtId) (location : Location) :
    (Context.new t).stmtScope stmt location = (Context.new t').stmtScope stmt location := by
  have hstmt : (Context.new t).table.stmtScope? stmt = (Context.new t').table.stmtScope? stmt :=
    h.stmtScope? stmt
  simp only [Context.stmtScope, hstmt]

theorem outcome (r : Resolution) : r.outcome t = r.outcome t' := by
  cases r with
  | owner scope form name location => rw [Resolution.outcome, h.ownerScope, Resolution.outcome]
  | statement stmt location => rw [Resolution.outcome, h.stmtScope, Resolution.outcome]
  | «variable» scope name location =>
    have hvar := h.variableHere? scope name
    simp only [Resolution.outcome]
    generalize t.variableHere? scope name = ty, t'.variableHere? scope name = ty' at hvar
    cases hvar <;> rfl
  | nameless location => rfl

end Found

/-! ## Agendas -/

theorem findsAlike (h : t.AtMost t') :
    FindsAlike (fun _ => True) (fun _ => True) Ty.AtMost t t' where
  ownerScope _ _ owner location := h.ownerScope _ owner _ location
  here_of_ownerScope _ _ _ := trivial
  stmtScope := h.stmtScope
  here_of_stmtScope _ := trivial
  variableHere? _ _ := h.variableHere? ..

theorem agenda (h : t.AtMost t') (p : Program) :
    List.Forall₂ Errand.AtMost (p.agenda t) (p.agenda t') :=
  (h.findsAlike.agenda trivial fun _ _ => trivial).imp fun _ _ => Errand.Related.atMost

end SymbolTable.AtMost

end Pearl
