import Pearl.Proofs.Constant.Fold
import Pearl.Proofs.SymbolTable.Agrees
import Pearl.Proofs.SymbolTable.Modules
import Pearl.Proofs.Typing.Entries
import Pearl.Proofs.Walk.Related

/-! # Declarations that a unit does not use

A declaration under a name that a unit does not use makes no difference to its constants and types.
It makes one to the number of modules if it takes the place of a module at the root.
-/

namespace Pearl

open Walk

variable {here : ScopeId → Prop} {named : String → Prop} {t t' : SymbolTable}

/-! ## What a traversal finds -/

theorem ExprPlace.Related.eq {place place' : ExprPlace} (h : Related named (· = ·) place place') :
    place = place' := by
  cases h with
  | plain | clause | assigned => rfl
  | initial hty => rw [hty]

namespace SymbolTable.Agrees

section Found

variable (h : Agrees here named t t') {scope : ScopeId} (hscope : here scope) {name : String}
  (hname : named name)
include h hscope hname

theorem lookupHere?_inside : ((Context.new t).inside scope).lookupHere? name =
    ((Context.new t').inside scope).lookupHere? name :=
  h.lookupHere_symbol? hscope hname

theorem ownerScope (owner : Owner) (location : Location) :
    t.ownerScope scope owner name location = t'.ownerScope scope owner name location := by
  simp only [SymbolTable.ownerScope, Context.ownerScope, h.lookupHere?_inside hscope hname]

theorem variableHere? : t.variableHere? scope name = t'.variableHere? scope name := by
  simp only [SymbolTable.variableHere?, h.lookupHere?_inside hscope hname]

theorem visibleVariable? : t.visibleVariable? scope name = t'.visibleVariable? scope name := by
  have hfound : ((Context.new t).inside scope).lookup? name =
      ((Context.new t').inside scope).lookup? name := h.lookup_symbol? hscope hname
  simp only [SymbolTable.visibleVariable?, hfound]

end Found

variable (h : Agrees here named t t')
include h

theorem stmtScope (stmt : StmtId) (location : Location) :
    (Context.new t).stmtScope stmt location = (Context.new t').stmtScope stmt location := by
  have hstmt : (Context.new t).table.stmtScope? stmt = (Context.new t').table.stmtScope? stmt :=
    h.stmtScope? stmt
  simp only [Context.stmtScope, hstmt]

theorem findsAlike : FindsAlike here named (· = ·) t t' where
  ownerScope hscope hname := h.ownerScope hscope hname
  here_of_ownerScope {scope name owner location inner} _ _ hinner := by
    unfold SymbolTable.ownerScope Context.ownerScope at hinner
    split at hinner
    · next hfound =>
      cases hinner
      obtain ⟨s, hs, hkind⟩ := Option.bind_eq_some_iff.mp hfound
      obtain ⟨id, -, hid⟩ := Option.bind_eq_some_iff.mp hs
      refine h.here_of_refersTo _ (.inr (.inl ⟨s, ?_, Owner.inner?_of_scopeOf? hkind⟩))
      exact Array.mem_toList_iff.mpr (Array.mem_of_getElem? hid)
    · cases hinner
  stmtScope := h.stmtScope
  here_of_stmtScope {stmt location inner} hinner := by
    unfold Context.stmtScope at hinner
    split at hinner
    · next hfound =>
      cases hinner
      obtain ⟨before, after, hsplit, -⟩ := List.lookup_eq_some_iff.mp hfound
      refine h.here_of_refersTo _ (.inr (.inr ⟨(stmt, inner), ?_, rfl⟩))
      exact hsplit.symm ▸ List.mem_append_cons_self
    · cases hinner
  variableHere? hscope hname := rel_eq_iff.mpr (h.variableHere? hscope hname)

theorem outcome {r : Resolution} (hr : r.Within here named) : r.outcome t = r.outcome t' := by
  cases r with
  | owner scope form name location =>
    rw [Resolution.outcome, h.ownerScope hr.1 hr.2, Resolution.outcome]
  | statement stmt location => rw [Resolution.outcome, h.stmtScope, Resolution.outcome]
  | «variable» scope name location =>
    simp only [Resolution.outcome, h.variableHere? hr.1 hr.2]
  | nameless location => rfl

/-- Two runs of a pass do the same if each errand does the same over both tables. -/
theorem run_eq {σ : Type} {pass : Pass σ} (hp : pass.Steady)
    (hvisit : ∀ {scope place x}, here scope → ExprPlace.Related named (· = ·) place place →
      (∀ ident ∈ x.names, named ident) → ∀ s,
        pass.perform (.new t) (.visit scope place x) s =
          pass.perform (.new t') (.visit scope place x) s)
    (hroot : here root) {p : Program} (hnames : ∀ name ∈ p.names, named name) (s : σ) :
    pass.run t s p = pass.run t' s p := by
  have hturn : inTurn (pass.perform (.new t)) (p.agenda t) s =
      inTurn (pass.perform (.new t')) (p.agenda t') s := by
    refine inTurn_congr (h.findsAlike.agenda hroot hnames) (fun e e' s he => ?_) s
    cases he with
    | @resolve r hr =>
      have hout : r.outcome (Context.new t).table = r.outcome (Context.new t').table := h.outcome hr
      simp only [Pass.perform, hout]
    | missing => rfl
    | visit hscope hplace hx =>
      obtain rfl := hplace.eq
      exact hvisit hscope hplace hx s
  rw [Pass.run_eq_inTurn hp, Pass.run_eq_inTurn hp, hturn]

end SymbolTable.Agrees

/-! ## Types -/

/-- The same is known in two contexts but for the names. -/
structure Context.KnowsAlike (c c' : Context) : Prop where
  precisions : c.precisions = c'.precisions
  assigned : c.assigned = c'.assigned
  inBound : c.inBound = c'.inBound
  defaults : c.table.defaults = c'.table.defaults

theorem Context.KnowsAlike.initial {c c' : Context} (h : c.KnowsAlike c') (ty : Ty) :
    ({ c with initial := some (c.initializerPrecisionsOf ty) } : Context).KnowsAlike
      { c' with initial := some (c'.initializerPrecisionsOf ty) } where
  precisions := by
    change c.initializerPrecisionsOf ty = c'.initializerPrecisionsOf ty
    simp only [initializerPrecisionsOf, h.defaults]
  assigned := h.assigned
  inBound := h.inBound
  defaults := h.defaults

namespace TypingTable

section Congr

variable {c c' : Context} (h : c.KnowsAlike c')
include h

theorem judgeLiteral_congr (site : ExprSite) (value : Literal) :
    judgeLiteral c site value = judgeLiteral c' site value := by
  have hty : literalTy c = literalTy c' := by
    funext k
    cases k with
    | fixed v g => simp only [literalTy, h.inBound, h.assigned]
    | _ => rfl
  simp only [judgeLiteral, h.precisions, hty]

theorem judgeBound_congr (site : ExprSite) (op : Monadic) (x : Expr) :
    judgeBound c site op x = judgeBound c' site op x := by
  simp only [judgeBound, h.inBound, h.precisions]

/-- A judgement depends on the table by the names in the expression alone, and else on what is
known. -/
theorem judge_congr {x : Expr}
    (hnames : ∀ ident ∈ x.names, ∀ site, judgeName c site ident = judgeName c' site ident) :
    judge c x = judge c' x := by
  induction x with
  | dangling | attempt | now | taskOf => rfl
  | literal site value => simp only [judge, judgeLiteral_congr h]
  | name site ident => simp only [judge, hnames ident (List.mem_singleton_self _)]
  | sizeOf site ident => simp only [judge, h.defaults]
  | monadic site op x ih => simp only [judge, judgeBound_congr h, ih () hnames]
  | paren site x ih | cont site x ih => simp only [judge, ih () hnames]
  | dyadic site op x y ihx ihy | slice site kind x y ihx ihy =>
    obtain ⟨hx, hy⟩ := List.forall_mem_append.mp hnames
    simp only [judge, ihx () hx, ihy () hy, h.defaults]

end Congr

/-- What a name is typed as depends on the table and the current scope. -/
theorem judgeName_of_cursor {c c' : Context} (h : c.cursor = c'.cursor) :
    judgeName c = judgeName c' := by
  unfold judgeName Context.table
  rw [h]

section Agrees

variable (h : SymbolTable.Agrees here named t t') {scope : ScopeId} (hscope : here scope)
include h hscope

theorem knowsAlike_inside : ((Context.new t).inside scope).KnowsAlike
    ((Context.new t').inside scope) where
  precisions := by
    change Precisions.mk (t.fixedLength scope) (t.floatLength scope) =
      Precisions.mk (t'.fixedLength scope) (t'.floatLength scope)
    rw [h.fixedLength hscope, h.floatLength hscope]
  assigned := rfl
  inBound := rfl
  defaults := h.defaults

theorem judgeName_inside {ident : String} (hident : named ident) (site : ExprSite) :
    judgeName ((Context.new t).inside scope) site ident =
      judgeName ((Context.new t').inside scope) site ident := by
  have hlookup : ((Context.new t).inside scope).cursor.lookup ident =
      ((Context.new t').inside scope).cursor.lookup ident := h.lookup hscope hident
  unfold judgeName
  rw [← hlookup]
  split
  · rfl
  · next id hid =>
    have hsymbol : ((Context.new t).inside scope).table.symbol? id =
        ((Context.new t').inside scope).table.symbol? id :=
      h.symbol? id (h.bound.lt_of_lookup hid)
    rw [hsymbol]

/-- A place makes contexts that know alike of those in the same scope. -/
theorem frame_congr {place : ExprPlace} (hplace : ExprPlace.Related named (· = ·) place place) :
    Alike (fun _ => False) Context.KnowsAlike (frame ((Context.new t).inside scope) place)
      (frame ((Context.new t').inside scope) place) := by
  have hknows := knowsAlike_inside h hscope
  cases hplace with
  | plain => exact .ok hknows
  | clause clause =>
    cases clause with
    | condition => exact .ok hknows
    | first | step | last => exact .ok ⟨hknows.precisions, hknows.assigned, rfl, hknows.defaults⟩
  | @assigned location target htarget =>
    have hvar :
        ((Context.new t).inside scope).table.visibleVariable? ((Context.new t).inside scope).scope
        target = ((Context.new t').inside scope).table.visibleVariable?
          ((Context.new t').inside scope).scope target :=
      h.visibleVariable? hscope htarget
    simp only [frame, hvar]
    split
    · exact .ok ⟨hknows.precisions, rfl, hknows.inBound, hknows.defaults⟩
    · exact .error _
  | @initial ty => exact .ok (hknows.initial ty)

theorem judgeAt_congr {place : ExprPlace} (hplace : ExprPlace.Related named (· = ·) place place)
    {x : Expr} (hx : ∀ ident ∈ x.names, named ident) :
    judgeAt ((Context.new t).inside scope) place x =
      judgeAt ((Context.new t').inside scope) place x := by
  have hframe := frame_congr h hscope hplace
  unfold judgeAt
  generalize hf : frame ((Context.new t).inside scope) place = f,
    hf' : frame ((Context.new t').inside scope) place = f' at hframe
  cases hframe with
  | error d => rfl
  | lost _ hfalse => exact hfalse.elim
  | ok hknows =>
    refine judge_congr hknows fun ident hident site => ?_
    rw [judgeName_of_cursor (cursor_of_frame hf), judgeName_of_cursor (cursor_of_frame hf')]
    exact judgeName_inside h hscope (hx ident hident) site

end Agrees

/-- The same types are found over tables that agree. -/
theorem ofProgram_agrees (h : SymbolTable.Agrees here named t t') (hroot : here SymbolTable.root)
    {p : Program} (hnames : ∀ name ∈ p.names, named name) (n : Nat) :
    ofProgram t n p = ofProgram t' n p := by
  refine h.run_eq steady_inferring (fun hscope hplace hx s => ?_) hroot hnames _
  rw [Errand.perform_inferring, Errand.perform_inferring]
  simp only [Errand.typed, Errand.log, judgeAt_congr h hscope hplace hx]

end TypingTable

/-! ## Constants -/

namespace Pool

theorem perform_collecting_congr (h : SymbolTable.Agrees here named t t') {scope : ScopeId}
    (hscope : here scope) (place : ExprPlace) (x : Expr) (s : Pool) :
    collecting.perform (.new t) (.visit scope place x) s =
      collecting.perform (.new t') (.visit scope place x) s := by
  have hknows := TypingTable.knowsAlike_inside h hscope
  cases place with
  | plain | clause | assigned =>
    have hread := readsPrecisions_collect x _ _ s hknows.precisions
    simp only [Pass.perform, Pass.visit, collecting, hread]
  | initial ty =>
    have hread := readsPrecisions_collect x _ _ s (hknows.initial ty).precisions
    simp only [Pass.perform, Pass.visit, collecting, initializing, runFrom_bind, runFrom_context,
      runFrom_bracket, hread]

/-- The same constants are pooled over tables that agree. -/
theorem ofProgram_agrees (h : SymbolTable.Agrees here named t t') (hroot : here SymbolTable.root)
    {p : Program} (hnames : ∀ name ∈ p.names, named name) : ofProgram t p = ofProgram t' p := by
  unfold ofProgram
  rw [h.defaults]
  exact h.run_eq steady_collecting (fun hscope _ _ s => perform_collecting_congr h hscope _ _ s)
    hroot hnames _

end Pool

/-! ## The analysis -/

/-- A step that declares a module at the root. -/
def SymbolTable.Step.AddsModule : Step → Prop
  | .module _ => True
  | .declare scope _ (.module _) => scope = root
  | _ => False

/-- A step that declares a name and adds no module only declares it, or first opens the scope that
it owns. -/
theorem SymbolTable.perform_of_declared {step : Step} {scope : ScopeId} {name : String}
    (hstep : step.declared? = some (scope, name)) (hmodule : ¬step.AddsModule) (t : SymbolTable) :
    (∃ kind, (t.perform step).2 = (t.declare scope name kind).2 ∧
      (scope = root → ∀ inner, kind ≠ .module inner)) ∨
    ∃ kind, (t.perform step).2 = (t.openOwner scope name kind).2.2 ∧
      (t.perform step).1.scope = some ⟨t.scopes.size⟩ ∧
      ∀ inner inner', kind inner ≠ .module inner' := by
  cases step with
  | openScope | setLengths | openStatement => cases hstep
  | module => exact absurd trivial hmodule
  | procedure _ _ result =>
    cases hstep
    exact .inr ⟨(.procedure · result), rfl, rfl, fun _ _ => by rintro ⟨⟩⟩
  | task _ _ isMain isGlobal =>
    cases hstep
    exact .inr ⟨(.task · isMain isGlobal), rfl, rfl, fun _ _ => by rintro ⟨⟩⟩
  | «variable» _ _ ty inv =>
    cases hstep
    exact .inl ⟨.variable ty inv, rfl, fun _ _ => by rintro ⟨⟩⟩
  | semaphore =>
    cases hstep
    exact .inl ⟨.semaphore, rfl, fun _ _ => by rintro ⟨⟩⟩
  | declare _ _ kind =>
    cases hstep
    refine .inl ⟨kind, rfl, fun hscope inner hkind => ?_⟩
    subst hkind
    exact hmodule hscope

namespace Analysis

variable {tree : Tree}

/-- A declaration of the name in the scope leaves one of two modules, where the tree has no second
one. -/
def LeavesOneModule (t : SymbolTable) (tree : Tree) (scope : ScopeId) (name : String) : Prop :=
  t.ReplacesModule scope name ∧ t.modules.length = 2 ∧ tree.modules.length ≤ 1

theorem checkModules_eq_iff : checkModules t' tree = checkModules t tree ↔
    (t'.modules.length ≤ 1 ∧ tree.modules.length ≤ 1 ↔
      t.modules.length ≤ 1 ∧ tree.modules.length ≤ 1) := by
  unfold checkModules
  by_cases h' : t'.modules.length ≤ 1 ∧ tree.modules.length ≤ 1 <;>
    by_cases h : t.modules.length ≤ 1 ∧ tree.modules.length ≤ 1
  · rw [if_pos h', if_pos h]
    exact iff_of_true rfl (iff_of_true h' h)
  · rw [if_pos h', if_neg h]
    exact iff_of_false (by rintro ⟨⟩) fun hiff => h (hiff.mp h')
  · rw [if_neg h', if_pos h]
    exact iff_of_false (by rintro ⟨⟩) fun hiff => h' (hiff.mpr h)
  · rw [if_neg h', if_neg h]
    exact iff_of_true rfl (iff_of_false h' h)

/-- Both passes come to the same over the two tables. -/
structure PassesAgree (t' t : SymbolTable) (tree : Tree) : Prop where
  pool : Pool.ofTree t' tree = Pool.ofTree t tree
  types : TypingTable.ofTree t' tree = TypingTable.ofTree t tree

theorem PassesAgree.trans {t'' : SymbolTable} (h' : PassesAgree t'' t' tree)
    (h : PassesAgree t' t tree) : PassesAgree t'' t tree :=
  ⟨h'.pool.trans h.pool, h'.types.trans h.types⟩

/-- Neither pass sees a difference between tables that agree on the names of the tree. -/
theorem passesAgree_of_agrees (h : SymbolTable.Agrees here (· ∈ tree.names) t t')
    (hroot : here SymbolTable.root) : PassesAgree t' t tree :=
  ⟨(Pool.ofProgram_agrees h hroot tree.names_program_subset).symm,
    (TypingTable.ofProgram_agrees h hroot tree.names_program_subset _).symm⟩

theorem checkModules_declare (hlisted : t.Listed) (hroot : (t.scope? SymbolTable.root).isSome)
    {scope : ScopeId} (name : String) {kind : SymbolKind}
    (hkind : scope = SymbolTable.root → ∀ inner, kind ≠ .module inner) :
    checkModules (t.declare scope name kind).2 tree = checkModules t tree ↔
      ¬LeavesOneModule t tree scope name := by
  obtain ⟨s, hs⟩ := Option.isSome_iff_exists.mp hroot
  obtain ⟨hkept, hless⟩ := SymbolTable.modules_declare name hlisted hkind hs
  rw [checkModules_eq_iff, LeavesOneModule]
  by_cases hreplaces : t.ReplacesModule scope name
  · have hlength := hless hreplaces
    simp only [hreplaces, true_and]
    omega
  · simp [hkept hreplaces, hreplaces]

theorem checkModules_openOwner (hlisted : t.Listed) (hroot : (t.scope? SymbolTable.root).isSome)
    (scope : ScopeId) (name : String) {kind : ScopeId → SymbolKind}
    (hkind : ∀ inner inner', kind inner ≠ .module inner') :
    checkModules (t.openOwner scope name kind).2.2 tree = checkModules t tree ↔
      ¬LeavesOneModule t tree scope name := by
  have hmodules := SymbolTable.modules_openScope hroot scope
  have hleaves : LeavesOneModule (t.openScope scope).2 tree scope name ↔
      LeavesOneModule t tree scope name := by
    simp only [LeavesOneModule, SymbolTable.ReplacesModule, hmodules,
      SymbolTable.lookupHere_openScope]
  have hopen : checkModules (t.openScope scope).2 tree = checkModules t tree := by
    simp only [checkModules, hmodules]
  rw [← hleaves, ← hopen]
  exact checkModules_declare (hlisted.openScope scope)
    (SymbolTable.isSome_scope?_openScope hroot scope) name
    fun _ => hkind _

section Unused

variable (hbound : t.Bound) (scope : ScopeId) {name : String} (hname : name ∉ tree.names)
include hbound hname

theorem passesAgree_declare (kind : SymbolKind) :
    PassesAgree (t.declare scope name kind).2 t tree := by
  have hother : ∀ other ∈ tree.names, other ≠ name := fun _ hmem heq => hname (heq ▸ hmem)
  exact passesAgree_of_agrees (SymbolTable.agrees_declare hbound hother scope kind) trivial

/-- The new scope is seen from nowhere, as nothing refers to it yet. -/
theorem passesAgree_openOwner (kind : ScopeId → SymbolKind)
    (hroot : (t.scope? SymbolTable.root).isSome) (hfree : ¬t.RefersTo ⟨t.scopes.size⟩) :
    PassesAgree (t.openOwner scope name kind).2.2 t tree := by
  have hne : SymbolTable.root ≠ ⟨t.scopes.size⟩ := by
    intro heq
    exact Nat.ne_of_lt (SymbolTable.isSome_scope?.mp hroot) (congrArg ScopeId.index heq)
  have hopen : PassesAgree (t.openScope scope).2 t tree :=
    passesAgree_of_agrees (SymbolTable.agrees_openScope hbound hfree scope) hne
  exact (passesAgree_declare (hbound.openScope scope) scope hname (kind ⟨t.scopes.size⟩)).trans
    hopen

end Unused

/-- A declaration under a name that the tree does not use, which declares no module at the root and
opens no scope that something refers to already, changes neither the constants nor the types of the
unit. The number of modules is judged as before unless the declaration leaves one of two modules,
and in all other cases the whole analysis comes to the same. -/
theorem unused_declaration (defaults : LanguageDefaults) (history : List SymbolTable.Step)
    (step : SymbolTable.Step) (scope : ScopeId) (name : String)
    (hstep : step.declared? = some (scope, name)) (hmodule : ¬step.AddsModule) (tree : Tree)
    (hname : name ∉ tree.names)
    (hfree : ∀ inner, (((SymbolTable.new defaults).run history).perform step).1.scope = some inner →
      ¬((SymbolTable.new defaults).run history).RefersTo inner) :
    let t := (SymbolTable.new defaults).run history
    let t' := (t.perform step).2
    Pool.ofTree t' tree = Pool.ofTree t tree ∧
      TypingTable.ofTree t' tree = TypingTable.ofTree t tree ∧
      (checkModules t' tree = checkModules t tree ↔ ¬LeavesOneModule t tree scope name) ∧
      (¬LeavesOneModule t tree scope name → ofTree t' tree = ofTree t tree) := by
  intro t t'
  have hbound : t.Bound := SymbolTable.bound_run defaults history
  have hlisted : t.Listed := SymbolTable.listed_run defaults history
  have hroot : (t.scope? SymbolTable.root).isSome := SymbolTable.isSome_scope?_root
  obtain ⟨hpasses, hcheck⟩ : PassesAgree t' t tree ∧
      (checkModules t' tree = checkModules t tree ↔ ¬LeavesOneModule t tree scope name) := by
    rcases SymbolTable.perform_of_declared hstep hmodule t with
      ⟨kind, hperform, hkind⟩ | ⟨kind, hperform, hscope, hkind⟩
    · rw [show t' = _ from hperform]
      exact ⟨passesAgree_declare hbound scope hname kind,
        checkModules_declare hlisted hroot name hkind⟩
    · rw [show t' = _ from hperform]
      exact ⟨passesAgree_openOwner hbound scope hname kind hroot (hfree _ hscope),
        checkModules_openOwner hlisted hroot scope name hkind⟩
  refine ⟨hpasses.pool, hpasses.types, hcheck, fun hleaves => ?_⟩
  simp only [ofTree, hcheck.mpr hleaves, hpasses.pool, hpasses.types]

end Analysis

/-! ## Declarations around a unit -/

namespace Sample

/-- How the table of the sample unit is made. -/
def history : List SymbolTable.Step :=
  [.module "m", .variable ⟨1⟩ "x" (.fixed 7) false, .variable ⟨1⟩ "f" (.array (.float 53)) false,
    .task ⟨1⟩ "t" true false, .setLengths ⟨2⟩ (some 20) none, .openStatement ⟨2⟩ ⟨2⟩]

/-- A unit of the module `a` and nothing else. -/
def bareTree : Tree where
  modules := [⟨"a", [], .unknown⟩]

/-- A module whose scope is said to stand inside the next scope to be opened. -/
def looseHistory : List SymbolTable.Step :=
  [.openScope ⟨2⟩, .declare SymbolTable.root "m" (.module ⟨1⟩),
    .variable SymbolTable.root "x" (.fixed 7) false, .variable ⟨1⟩ "y" (.fixed 7) false]

/-- The module initialises `y` with `x`. -/
def looseTree : Tree where
  modules := [⟨"m", [.variable ⟨["y"], [⟨0⟩], .unknown⟩], .unknown⟩]
  exprs := #[⟨.name "x", .unknown, "x"⟩]

end Sample

namespace Analysis

open SymbolTable (root Step)

/-- A procedure inside the task of the sample unit makes no difference to it. -/
theorem unused_declaration_sample :
    let t := (SymbolTable.new {}).run Sample.history
    let step := Step.procedure ⟨2⟩ "p" (some .clock)
    step.declared? = some (⟨2⟩, "p") ∧ ¬step.AddsModule ∧ "p" ∉ Sample.tree.names ∧
      (∀ inner, (t.perform step).1.scope = some inner → ¬t.RefersTo inner) ∧
      ¬LeavesOneModule t Sample.tree ⟨2⟩ "p" ∧
      (∃ a, ofTree t Sample.tree = .ok a) ∧
      ofTree (t.perform step).2 Sample.tree = ofTree t Sample.tree := by
  intro t step
  have hname : "p" ∉ Sample.tree.names := by decide
  have hfree : ∀ inner, (t.perform step).1.scope = some inner → ¬t.RefersTo inner := by
    rintro inner ⟨⟩
    decide +kernel
  have hleaves : ¬LeavesOneModule t Sample.tree ⟨2⟩ "p" := fun h => absurd h.1.1 (by decide)
  refine ⟨rfl, id, hname, hfree, hleaves, exists_eq_ok_of_toBool (by decide +kernel), ?_⟩
  exact (unused_declaration {} Sample.history step ⟨2⟩ "p" rfl id Sample.tree hname hfree).2.2.2
    hleaves

/-- A variable in the place of the second of two modules lets a unit pass that was refused. A
procedure whose scope was given as a parent before lets the unit see names that it did not see. -/
theorem unused_declaration_changes :
    let two := (SymbolTable.new {}).run [.module "a", .module "b"]
    let loose := (SymbolTable.new {}).run Sample.looseHistory
    ("b" ∉ Sample.bareTree.names ∧ Sample.bareTree.WellFormed ∧
      ofTree two Sample.bareTree =
        .error (.reported (.notYetImplemented "multiple modules" .unknown)) ∧
      ∃ a, ofTree (two.perform (.variable root "b" (.fixed 7) false)).2 Sample.bareTree = .ok a) ∧
    "q" ∉ Sample.looseTree.names ∧ Sample.looseTree.WellFormed ∧
      ofTree loose Sample.looseTree = .error (.reported ⟨.unknownIdentifier, .unknown, "x"⟩) ∧
      ∃ a, ofTree (loose.perform (.procedure root "q" none)).2 Sample.looseTree = .ok a := by
  intro two loose
  refine ⟨⟨by decide, ?_, ?_, exists_eq_ok_of_toBool (by decide +kernel)⟩, by decide, ?_, ?_,
    exists_eq_ok_of_toBool (by decide +kernel)⟩
  · exact Tree.RefersBack.wellFormed (by decide)
  · exact map_eq_error.mp (show Except.map (fun _ => ()) _ = _ by decide +kernel)
  · exact Tree.RefersBack.wellFormed (by decide)
  · exact map_eq_error.mp (show Except.map (fun _ => ()) _ = _ by decide +kernel)

end Analysis

end Pearl
