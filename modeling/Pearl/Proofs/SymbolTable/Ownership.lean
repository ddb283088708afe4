import Pearl.Proofs.SymbolTable.Agrees
import Pearl.Proofs.SymbolTable.Listing

/-! # Owners of scopes

Modules, procedures, tasks and statements own the scopes that are opened for them. As long as no
symbol is declared with a scope that was opened for something else, an owner gets a scope that is
new, so that no two own the same one (`owned?_perform_self`, `owned?_perform_of_ne`). The parent of
the scope of a symbol is the scope that the symbol is declared in, and a traversal that enters the
scope of a symbol looked the symbol up in the scope where it stands: it goes from a scope to one
that was opened inside it.
-/

namespace Pearl.SymbolTable

/-- What may own a scope. -/
inductive Holder where
  | symbol (id : SymbolId)
  | statement (stmt : StmtId)
deriving DecidableEq, Repr

/-- The scope that is owned. -/
def owned? (t : SymbolTable) : Holder → Option ScopeId
  | .symbol id => (t.symbol? id).bind fun x => x.kind.inner?
  | .statement stmt => t.stmtScope? stmt

namespace Step

/-- The scope that a step gives to its symbol without opening it. -/
def borrowed? : Step → Option ScopeId
  | .declare _ _ kind => kind.inner?
  | .module _ | .procedure .. | .task .. | .variable .. | .semaphore .. | .openScope _
  | .setLengths .. | .openStatement .. => none

/-- The symbol that a step declares, with the scope that it opens. -/
def symbol? (inner : ScopeId) : Step → Option Symbol
  | .module name => some ⟨name, .module inner, root⟩
  | .procedure scope name result => some ⟨name, .procedure inner result, scope⟩
  | .task scope name isMain isGlobal => some ⟨name, .task inner isMain isGlobal, scope⟩
  | .variable scope name ty inv => some ⟨name, .variable ty inv, scope⟩
  | .semaphore scope name => some ⟨name, .semaphore, scope⟩
  | .declare scope name kind => some ⟨name, kind, scope⟩
  | .openScope _ | .setLengths .. | .openStatement .. => none

/-- What owns the scope that a step opens, where the next symbol has the given number. -/
def holder? (fresh : SymbolId) : Step → Option Holder
  | .module _ | .procedure .. | .task .. => some (.symbol fresh)
  | .openStatement stmt _ => some (.statement stmt)
  | .variable .. | .semaphore .. | .declare .. | .openScope _ | .setLengths .. => none

variable {step : Step} {inner i : ScopeId} {x : Symbol}

/-- A symbol that has a scope has the one that the step opens, inside the scope where it is
declared. -/
theorem parent?_of_symbol? (hborrowed : step.borrowed? = none) (hx : step.symbol? inner = some x)
    (hi : x.kind.inner? = some i) : i = inner ∧ step.parent? = some x.declaredIn := by
  cases step with
  | module | procedure | task =>
    cases hx
    cases hi
    exact ⟨rfl, rfl⟩
  | «variable» | semaphore =>
    cases hx
    cases hi
  | declare scope name kind =>
    cases hx
    cases hborrowed.symm.trans hi
  | openScope | setLengths | openStatement => cases hx

end Step

variable {t : SymbolTable} {step : Step}

/-! ## Steps -/

/-- A step declares the next symbol alone. -/
theorem symbol?_perform (step : Step) (id : SymbolId) : (t.perform step).2.symbol? id =
    if id.index = t.symbols.size then step.symbol? ⟨t.scopes.size⟩ else t.symbol? id := by
  have hkept : t.symbol? id = if id.index = t.symbols.size then none else t.symbol? id := by
    split
    · next hid => exact Array.getElem?_eq_none (Nat.le_of_eq hid.symm)
    · rfl
  cases step with
  | module | procedure | task | «variable» | semaphore | declare => exact Array.getElem?_push
  | openScope | setLengths | openStatement => exact hkept

theorem owned?_perform_self {a : Holder} (ha : step.holder? ⟨t.symbols.size⟩ = some a) :
    (t.perform step).2.owned? a = some ⟨t.scopes.size⟩ := by
  cases step with
  | module | procedure | task =>
    cases ha
    rw [owned?, symbol?_perform, if_pos rfl]
    rfl
  | openStatement stmt parent =>
    cases ha
    exact List.lookup_cons_self
  | «variable» | semaphore | declare | openScope | setLengths => cases ha

theorem owned?_perform_of_ne (hborrowed : step.borrowed? = none) {a : Holder}
    (ha : step.holder? ⟨t.symbols.size⟩ ≠ some a) : (t.perform step).2.owned? a = t.owned? a := by
  cases a with
  | symbol id =>
    rw [owned?, owned?, symbol?_perform]
    split
    · next hid =>
      obtain rfl : id = ⟨t.symbols.size⟩ := congrArg SymbolId.mk hid
      have hnone : t.symbol? ⟨t.symbols.size⟩ = none := Array.getElem?_eq_none (Nat.le_refl _)
      rw [hnone]
      cases step with
      | module | procedure | task => exact absurd rfl ha
      | declare => exact hborrowed
      | «variable» | semaphore | openScope | setLengths | openStatement => rfl
    · rfl
  | statement stmt =>
    cases step with
    | openStatement other parent =>
      have hne : (stmt == other) = false := beq_eq_false_iff_ne.mpr fun heq => ha (by rw [heq]; rfl)
      show ((other, _) :: t.stmtScopes).lookup stmt = t.stmtScopes.lookup stmt
      rw [List.lookup_cons, hne]
    | _ => rfl

/-- What owns a scope after a step owned it before, or the step opened it for that. -/
theorem owned?_perform_cases (hborrowed : step.borrowed? = none) {a : Holder} {i : ScopeId}
    (ha : (t.perform step).2.owned? a = some i) :
    t.owned? a = some i ∨ step.holder? ⟨t.symbols.size⟩ = some a ∧ i = ⟨t.scopes.size⟩ := by
  by_cases hholder : step.holder? ⟨t.symbols.size⟩ = some a
  · rw [owned?_perform_self hholder] at ha
    exact .inr ⟨hholder, (Option.some.inj ha).symm⟩
  · rw [owned?_perform_of_ne hborrowed hholder] at ha
    exact .inl ha

/-! ## Histories -/

/-- The scopes of owners are there and are not the root, and none has two owners. That of a symbol
is inside the scope which the symbol is declared in. -/
structure OwnedApart (t : SymbolTable) : Prop where
  size_pos : 0 < t.scopes.size
  lt_size : ∀ {a i}, t.owned? a = some i → i.index < t.scopes.size
  ne_root : ∀ {a i}, t.owned? a = some i → i ≠ root
  eq_of_owned? : ∀ {a b i}, t.owned? a = some i → t.owned? b = some i → a = b
  parent?_eq : ∀ {id x i}, t.symbol? id = some x → x.kind.inner? = some i →
    t.parent? i = some x.declaredIn

theorem owned?_new_ne_some (defaults : LanguageDefaults) (a : Holder) (i : ScopeId) :
    (new defaults).owned? a ≠ some i := by
  cases a <;> exact (Option.some_ne_none i).symm

theorem ownedApart_new (defaults : LanguageDefaults) : (new defaults).OwnedApart where
  size_pos := Nat.zero_lt_one
  lt_size {a i} ha := absurd ha (owned?_new_ne_some defaults a i)
  ne_root {a i} ha := absurd ha (owned?_new_ne_some defaults a i)
  eq_of_owned? {a _ i} ha := absurd ha (owned?_new_ne_some defaults a i)
  parent?_eq hx := absurd hx (Option.some_ne_none _).symm

namespace OwnedApart

variable (h : t.OwnedApart)
include h

theorem perform (hborrowed : step.borrowed? = none) : (t.perform step).2.OwnedApart where
  size_pos := by
    rw [size_perform]
    exact Nat.lt_of_lt_of_le h.size_pos (Nat.le_add_right _ _)
  lt_size {a i} ha := by
    rw [size_perform]
    rcases owned?_perform_cases hborrowed ha with hold | ⟨hholder, rfl⟩
    · exact Nat.lt_of_lt_of_le (h.lt_size hold) (Nat.le_add_right _ _)
    · cases step with
      | module | procedure | task | openStatement => exact Nat.lt_succ_self _
      | «variable» | semaphore | declare | openScope | setLengths => cases hholder
  ne_root {a i} ha := by
    rcases owned?_perform_cases hborrowed ha with hold | ⟨-, rfl⟩
    · exact h.ne_root hold
    · exact fun hroot => Nat.ne_of_gt h.size_pos (congrArg ScopeId.index hroot)
  eq_of_owned? {a b i} ha hb := by
    rcases owned?_perform_cases hborrowed ha with haold | ⟨hanew, rfl⟩ <;>
      rcases owned?_perform_cases hborrowed hb with hbold | ⟨hbnew, hi⟩
    · exact h.eq_of_owned? haold hbold
    · exact absurd (congrArg ScopeId.index hi) (Nat.ne_of_lt (h.lt_size haold))
    · exact absurd rfl (Nat.ne_of_lt (h.lt_size hbold))
    · exact Option.some.inj (hanew.symm.trans hbnew)
  parent?_eq {id x i} hx hi := by
    rw [symbol?_perform] at hx
    rw [parent?_perform]
    split at hx
    · obtain ⟨rfl, hparent⟩ := Step.parent?_of_symbol? hborrowed hx hi
      rw [if_pos rfl, hparent]
    · have howned : t.owned? (.symbol id) = some i := by rw [owned?, hx]; exact hi
      rw [if_neg (Nat.ne_of_lt (h.lt_size howned)), h.parent?_eq hx hi]

theorem run {history : List Step} (hborrowed : ∀ step ∈ history, step.borrowed? = none) :
    (t.run history).OwnedApart := by
  induction history generalizing t with
  | nil => exact h
  | cons step history ih =>
    obtain ⟨hstep, hhistory⟩ := List.forall_mem_cons.mp hborrowed
    exact ih (h.perform hstep) hhistory

end OwnedApart

/-! ## Where a traversal goes -/

open Walk

section Entered

variable {c : Context} {owner : Owner} {name : String} {location : Location} {scope : ScopeId}

/-- A traversal enters the scope of an owner from the scope where the owner is declared. -/
theorem OwnedApart.parent?_of_ownerScope (h : c.table.OwnedApart) (hown : c.table.BindsOwn)
    (hscope : c.ownerScope owner name location = .ok scope) :
    c.table.parent? scope = some c.scope := by
  unfold Context.ownerScope at hscope
  split at hscope
  · next hfound =>
    cases hscope
    obtain ⟨x, hx, hkind⟩ := Option.bind_eq_some_iff.mp hfound
    obtain ⟨id, hid, hx⟩ := Option.bind_eq_some_iff.mp hx
    obtain ⟨y, hy, -, hdeclared⟩ := hown c.scope name id hid
    obtain rfl : x = y := Option.some.inj (hx.symm.trans hy)
    rw [h.parent?_eq hx (Owner.inner?_of_scopeOf? hkind), hdeclared]
  · cases hscope

theorem runFrom_inOwner {σ α : Type} {w : Walker σ}
    (hscope : w.context.ownerScope owner name location = .ok scope) (act : Walk σ α) :
    (inOwner owner name location act).runFrom w = (inScope scope act).runFrom w := by
  unfold inOwner
  rw [runFrom_bind, runFrom_context]
  dsimp only
  rw [runFrom_bind, hscope, runFrom_ofExcept]
  rfl

end Entered

/-- Owners have scopes of their own. After any history in which no symbol is declared with a scope
that was not opened for it, the scope of each module, procedure and task is there, is not the root
and has for its parent the scope that the symbol is declared in. The scope of each statement is
there and is not the root. No two symbols or statements own the same scope. So wherever a traversal
of the table goes into a module, procedure or task, the parent of the scope that it enters is the
scope where it stands. -/
theorem owners_have_scopes_of_their_own (defaults : LanguageDefaults) {history : List Step}
    (hborrowed : ∀ step ∈ history, step.borrowed? = none) :
    let t := (new defaults).run history
    (∀ id x i, t.symbol? id = some x → x.kind.inner? = some i →
      (t.scope? i).isSome ∧ i ≠ root ∧ t.parent? i = some x.declaredIn) ∧
    (∀ stmt i, t.stmtScope? stmt = some i → (t.scope? i).isSome ∧ i ≠ root) ∧
    (∀ a b i, t.owned? a = some i → t.owned? b = some i → a = b) ∧
    ∀ (σ α : Type) (w : Walker σ) (act : Walk σ α) owner name location scope, w.context.table = t →
      w.context.ownerScope owner name location = .ok scope →
        t.parent? scope = some w.context.scope ∧
          (inOwner owner name location act).runFrom w = (inScope scope act).runFrom w := by
  intro t
  have howned : t.OwnedApart := (ownedApart_new defaults).run hborrowed
  have hown : t.BindsOwn := bindsOwn_run defaults history
  refine ⟨fun id x i hx hi => ?_, fun stmt i hi => ?_, fun a b i => howned.eq_of_owned?, ?_⟩
  · have ha : t.owned? (.symbol id) = some i := by rw [owned?, hx]; exact hi
    exact ⟨isSome_scope?.mpr (howned.lt_size ha), howned.ne_root ha, howned.parent?_eq hx hi⟩
  · have ha : t.owned? (.statement stmt) = some i := hi
    exact ⟨isSome_scope?.mpr (howned.lt_size ha), howned.ne_root ha⟩
  · intro σ α w act owner name location scope htable hscope
    rw [← htable] at howned hown ⊢
    exact ⟨howned.parent?_of_ownerScope hown hscope, runFrom_inOwner hscope act⟩

/-- A procedure in a module, whose block is opened once more in the module, and a task in a scope
that is not there: a traversal that stands in the module goes into the procedure. -/
theorem owners_have_scopes_of_their_own_nested :
    let history : List Step := [.module "m", .procedure ⟨1⟩ "p" none, .openStatement ⟨0⟩ ⟨2⟩,
      .openStatement ⟨0⟩ ⟨1⟩, .task ⟨9⟩ "t" false false]
    let t := (new {}).run history
    let w : Walker Unit := ⟨(Context.new t).enter ⟨1⟩, ()⟩
    (∀ step ∈ history, step.borrowed? = none) ∧
      t.parent? ⟨5⟩ = some ⟨9⟩ ∧ (t.scope? ⟨4⟩).isSome ∧
      (∀ b, t.owned? b = some ⟨4⟩ → .statement ⟨0⟩ = b) ∧
      w.context.ownerScope .procedure "p" .unknown = .ok ⟨2⟩ ∧
      t.parent? ⟨2⟩ = some w.context.scope := by
  intro history t w
  have hborrowed : ∀ step ∈ history, step.borrowed? = none := by decide
  obtain ⟨hsymbol, hstmt, hone, hentered⟩ := owners_have_scopes_of_their_own {} hborrowed
  have hscope : w.context.ownerScope .procedure "p" .unknown = .ok ⟨2⟩ := rfl
  exact ⟨hborrowed, (hsymbol ⟨2⟩ ⟨"t", .task ⟨5⟩ false false, ⟨9⟩⟩ ⟨5⟩ rfl rfl).2.2,
    (hstmt ⟨0⟩ ⟨4⟩ rfl).1, fun b => hone (.statement ⟨0⟩) b ⟨4⟩ rfl, hscope,
    (hentered Unit Unit w (pure ()) .procedure "p" .unknown ⟨2⟩ rfl hscope).1⟩

end Pearl.SymbolTable
