import Mathlib.Data.List.Forall2
import Pearl.Proofs.Program.Names
import Pearl.Proofs.Walk.Agenda

/-! # Agendas over tables that find alike

Over two tables that find the same scopes a traversal has the same things to do in the same order.
The tables have to be alike only where it looks: from scopes that it can get to, for names of the
program. The types of the variables that are initialised may differ, as long as they are related.
-/

namespace Pearl

section Related

variable (here : ScopeId → Prop) (named : String → Prop) (V : Ty → Ty → Prop)

/-- What is to be found is looked for from a scope where a traversal may stand, under a name of the
program. -/
def Resolution.Within : Resolution → Prop
  | .owner scope _ name _ | .variable scope name _ => here scope ∧ named name
  | .statement .. | .nameless _ => True

/-- The same place but for the type of an initialised variable. -/
inductive ExprPlace.Related : ExprPlace → ExprPlace → Prop
  | plain : Related .plain .plain
  | clause (clause : Clause) : Related (.clause clause) (.clause clause)
  | assigned (location : Location) {target : String} (h : named target) :
    Related (.assigned location target) (.assigned location target)
  | initial {ty ty' : Ty} (h : V ty ty') : Related (.initial ty) (.initial ty')

/-- The same errand but for the place of what is visited. -/
inductive Errand.Related : Errand → Errand → Prop
  | resolve {r : Resolution} (h : r.Within here named) : Related (.resolve r) (.resolve r)
  | visit {scope : ScopeId} {place place' : ExprPlace} {x : Expr} (hscope : here scope)
    (hplace : ExprPlace.Related named V place place') (hx : ∀ ident ∈ x.names, named ident) :
    Related (.visit scope place x) (.visit scope place' x)
  | missing : Related .missing .missing

/-- Two tables find the same scopes, and related types of variables, and do not lead a traversal
elsewhere. -/
structure SymbolTable.FindsAlike (t t' : SymbolTable) : Prop where
  ownerScope : ∀ {scope name}, here scope → named name → ∀ owner location,
    t.ownerScope scope owner name location = t'.ownerScope scope owner name location
  here_of_ownerScope : ∀ {scope name owner location inner}, here scope → named name →
    t.ownerScope scope owner name location = .ok inner → here inner
  stmtScope : ∀ stmt location,
    (Context.new t).stmtScope stmt location = (Context.new t').stmtScope stmt location
  here_of_stmtScope : ∀ {stmt location inner},
    (Context.new t).stmtScope stmt location = .ok inner → here inner
  variableHere? : ∀ {scope name}, here scope → named name →
    Option.Rel V (t.variableHere? scope name) (t'.variableHere? scope name)

end Related

namespace SymbolTable.FindsAlike

variable {here : ScopeId → Prop} {named : String → Prop} {V : Ty → Ty → Prop} {t t' : SymbolTable}
  {scope : ScopeId}

theorem initializerAgenda (h : FindsAlike here named V t t') (hscope : here scope)
    {decl : Declaration Expr} (hdecl : ∀ name ∈ decl.names, named name) (i : Nat) {x : Expr}
    (hx : ∀ ident ∈ x.names, named ident) :
    List.Forall₂ (Errand.Related here named V) (decl.initializerAgenda t scope i x)
      (decl.initializerAgenda t' scope i x) := by
  unfold Declaration.initializerAgenda
  split
  · exact .cons (.resolve trivial) .nil
  · exact .cons .missing .nil
  · rename_i name site hnameOf _
    have hname : named name := hdecl name (Declaration.mem_names_of_nameOf? hnameOf)
    refine .cons (.resolve ⟨hscope, hname⟩) ?_
    have hvar := h.variableHere? hscope hname
    generalize t.variableHere? scope name = ty, t'.variableHere? scope name = ty' at hvar
    cases hvar with
    | none => exact .nil
    | some hty => exact .cons (.visit hscope (.initial hty) hx) .nil

theorem declarationAgenda (h : FindsAlike here named V t t') (hscope : here scope)
    {decl : Declaration Expr} (hdecl : ∀ name ∈ decl.allNames, named name) :
    List.Forall₂ (Errand.Related here named V) (decl.agenda t scope) (decl.agenda t' scope) := by
  obtain ⟨hnames, hinit⟩ := List.forall_mem_append.mp hdecl
  have hall : ∀ i xs, (∀ x ∈ xs, ∀ ident ∈ x.names, named ident) →
      List.Forall₂ (Errand.Related here named V) (decl.initializersAgenda t scope i xs)
        (decl.initializersAgenda t' scope i xs) := by
    intro i xs hxs
    induction xs generalizing i with
    | nil => exact .nil
    | cons x xs ih =>
      obtain ⟨hx, hxs⟩ := List.forall_mem_cons.mp hxs
      exact List.rel_append (h.initializerAgenda hscope hnames i hx) (ih (i + 1) hxs)
  refine hall 0 decl.init fun x hx ident hident => ?_
  exact hinit ident (List.mem_flatMap.mpr ⟨x, hx, hident⟩)

theorem clausesAgenda (hscope : here scope) {clauses : List (Clause × Expr)}
    (hclauses : ∀ ident ∈ clauses.flatMap (·.2.names), named ident) :
    List.Forall₂ (Errand.Related here named V) (Pearl.clausesAgenda scope clauses)
      (Pearl.clausesAgenda scope clauses) := by
  refine List.forall₂_same.mpr fun e he => ?_
  obtain ⟨c, hc, rfl⟩ := List.mem_map.mp he
  refine .visit hscope (.clause c.1) fun ident hident => ?_
  exact hclauses ident (List.mem_flatMap.mpr ⟨c, hc, hident⟩)

theorem optionalAgenda (hscope : here scope) {x : Option Expr}
    (hx : ∀ ident ∈ x.toList.flatMap Expr.names, named ident) :
    List.Forall₂ (Errand.Related here named V) (Pearl.optionalAgenda scope x)
      (Pearl.optionalAgenda scope x) := by
  cases x with
  | none => exact .nil
  | some x =>
    rw [Option.toList_some, List.flatMap_singleton] at hx
    exact .cons (.visit hscope .plain hx) .nil

/-- What is to be done inside a scope that has to be found first. -/
theorem inFound {found found' : Except Diagnostic ScopeId} (hfound : found = found')
    (hhere : ∀ inner, found = .ok inner → here inner) {agenda agenda' : ScopeId → List Errand}
    (hagenda : ∀ inner, here inner →
      List.Forall₂ (Errand.Related here named V) (agenda inner) (agenda' inner)) :
    List.Forall₂ (Errand.Related here named V) (Pearl.inFound found agenda)
      (Pearl.inFound found' agenda') := by
  subst hfound
  cases found with
  | error d => exact .nil
  | ok inner => exact hagenda inner (hhere inner rfl)

mutual

theorem stmtAgenda (h : FindsAlike here named V t t') :
    (s : Stmt) → (∀ name ∈ s.names, named name) → ∀ scope, here scope →
      List.Forall₂ (Errand.Related here named V) (s.agenda t scope) (s.agenda t' scope)
  | .dangling _, _, _, _ => .cons .missing .nil
  | .declare _ _, hs, _, hscope => h.declarationAgenda hscope hs
  | .assign site _ _, hs, _, hscope =>
    have ⟨htarget, hvalue⟩ := List.forall_mem_cons.mp hs
    .cons (.visit hscope (.assigned site.location htarget) hvalue) .nil
  | .block _ body, hs, _, _ =>
    .cons (.resolve trivial) (inFound (h.stmtScope ..) (fun _ => h.here_of_stmtScope)
      (stmtAgendaAll h body hs))
  | .loop _ _ _ body, hs, _, _ =>
    have ⟨hclauses, hbody⟩ := List.forall_mem_append.mp hs
    .cons (.resolve trivial)
      (inFound (h.stmtScope ..) (fun _ => h.here_of_stmtScope) fun inner hinner =>
        List.rel_append (clausesAgenda hinner hclauses) (stmtAgendaAll h body hbody inner hinner))
  | .branch _ _ thenBody elseBody, hs, scope, hscope =>
    have ⟨hcondition, hbodies⟩ := List.forall_mem_append.mp hs
    have ⟨hthen, helse⟩ := List.forall_mem_append.mp hbodies
    .cons (.visit hscope .plain hcondition) (List.rel_append
      (stmtAgendaAll h thenBody hthen scope hscope) (stmtAgendaAll h elseBody helse scope hscope))
  | .ret _ _, hs, _, hscope => optionalAgenda hscope hs
  | .eval _ _, hs, _, hscope => .cons (.visit hscope .plain hs) .nil

theorem stmtAgendaAll (h : FindsAlike here named V t t') : (body : List (Unit → Stmt)) →
    (∀ name ∈ Stmt.namesAll body, named name) → ∀ scope, here scope →
      List.Forall₂ (Errand.Related here named V) (Stmt.agendaAll t scope body)
        (Stmt.agendaAll t' scope body)
  | [], _, _, _ => .nil
  | s :: rest, hbody, scope, hscope =>
    have ⟨hs, hrest⟩ := List.forall_mem_append.mp hbody
    List.rel_append (stmtAgenda h (s ()) hs scope hscope) (stmtAgendaAll h rest hrest scope hscope)

end

theorem itemAgenda (h : FindsAlike here named V t t') (hscope : here scope)
    {i : Item Expr (Unit → Stmt)} (hi : ∀ name ∈ i.allNames, named name) :
    List.Forall₂ (Errand.Related here named V) (i.agenda t scope) (i.agenda t' scope) := by
  cases i with
  | «variable» decl => exact h.declarationAgenda hscope hi
  | procedure name body location =>
    obtain ⟨hname, hbody⟩ := List.forall_mem_cons.mp hi
    exact .cons (.resolve ⟨hscope, hname⟩) (inFound (h.ownerScope hscope hname ..)
      (fun _ => h.here_of_ownerScope hscope hname) (h.stmtAgendaAll body hbody))
  | task name priority body location =>
    obtain ⟨hname, hrest⟩ := List.forall_mem_cons.mp hi
    obtain ⟨hpriority, hbody⟩ := List.forall_mem_append.mp hrest
    refine .cons (.resolve ⟨hscope, hname⟩) (inFound (h.ownerScope hscope hname ..)
      (fun _ => h.here_of_ownerScope hscope hname) fun inner hinner => ?_)
    exact List.rel_append (optionalAgenda hinner hpriority)
      (h.stmtAgendaAll body hbody inner hinner)

/-- A traversal from the root has related things to do in the same order. -/
theorem agenda (h : FindsAlike here named V t t') (hroot : here root) {p : Program}
    (hp : ∀ name ∈ p.names, named name) :
    List.Forall₂ (Errand.Related here named V) (p.agenda t) (p.agenda t') := by
  refine List.rel_flatMap (R := fun m m' => m = m' ∧ m ∈ p)
    (List.forall₂_same.mpr fun m hm => ⟨rfl, hm⟩) ?_
  rintro m _ ⟨rfl, hm⟩
  obtain ⟨hname, hitems⟩ := List.forall_mem_cons.mp fun name hname =>
    hp name (List.mem_flatMap.mpr ⟨m, hm, hname⟩)
  refine .cons (.resolve ⟨hroot, hname⟩) (inFound (h.ownerScope hroot hname ..)
    (fun _ => h.here_of_ownerScope hroot hname) fun inner hinner => ?_)
  refine List.rel_flatMap (R := fun i i' => i = i' ∧ i ∈ m.items)
    (List.forall₂_same.mpr fun i hi => ⟨rfl, hi⟩) ?_
  rintro i _ ⟨rfl, hi⟩
  exact h.itemAgenda hinner fun name hname => hitems name (List.mem_flatMap.mpr ⟨i, hi, hname⟩)

end SymbolTable.FindsAlike

end Pearl
