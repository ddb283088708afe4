import Pearl.Walk.Context

/-! # Walks

A walk is an action with a context and a store, which may end early. Whatever changes the context
for the length of an action restores it afterwards, also when the action ends early.
-/

namespace Pearl

/-- The state of a walk: where it stands and what it has gathered. -/
structure Walker (σ : Type) where
  context : Context
  store : σ

abbrev Walk (σ : Type) := ExceptT Halt (StateM (Walker σ))

namespace Walk

variable {σ α : Type}

/-- Run a walk from a walker, giving the outcome and the walker after it. -/
def runFrom (act : Walk σ α) (w : Walker σ) : Except Halt α × Walker σ := (ExceptT.run act).run w

def context : Walk σ Context := do return (← get).context

def store : Walk σ σ := do return (← get).store

def modifyStore (f : σ → σ) : Walk σ Unit := modify fun w => { w with store := f w.store }

def report (d : Diagnostic) : Walk σ α := throw (.reported d)

/-- An outcome that was computed outside of the walk. -/
def ofExcept : Except Diagnostic α → Walk σ α
  | .ok a => pure a
  | .error d => report d

/-- Run an action in a changed context. `restore` makes the context afterwards from the one before
and the one that the action left. -/
def bracket (change : Context → Context) (restore : Context → Context → Context) (act : Walk σ α) :
    Walk σ α :=
  ExceptT.mk fun w =>
    let (outcome, after) := act.runFrom { w with context := change w.context }
    (outcome, { after with context := restore w.context after.context })

/-! ## Runs -/

@[simp] theorem runFrom_pure (a : α) (w : Walker σ) :
    (pure a : Walk σ α).runFrom w = (.ok a, w) := rfl

@[simp] theorem runFrom_throw (h : Halt) (w : Walker σ) :
    (throw h : Walk σ α).runFrom w = (.error h, w) := rfl

@[simp] theorem runFrom_report (d : Diagnostic) (w : Walker σ) :
    (report d : Walk σ α).runFrom w = (.error (.reported d), w) := rfl

@[simp] theorem runFrom_context (w : Walker σ) :
    (context : Walk σ Context).runFrom w = (.ok w.context, w) := rfl

@[simp] theorem runFrom_store (w : Walker σ) :
    (store : Walk σ σ).runFrom w = (.ok w.store, w) := rfl

@[simp] theorem runFrom_modifyStore (f : σ → σ) (w : Walker σ) :
    (modifyStore f).runFrom w = (.ok (), { w with store := f w.store }) := rfl

@[simp] theorem runFrom_ofExcept (r : Except Diagnostic α) (w : Walker σ) :
    (ofExcept r : Walk σ α).runFrom w = (r.mapError .reported, w) := by
  cases r <;> rfl

/-- An action that ends early is the end of the walk. -/
theorem runFrom_bind {β : Type} (act : Walk σ α) (f : α → Walk σ β) (w : Walker σ) :
    (act >>= f).runFrom w = match act.runFrom w with
      | (.ok a, w) => (f a).runFrom w
      | (.error h, w) => (.error h, w) := by
  unfold runFrom ExceptT.run StateT.run
  simp only [bind, ExceptT.bind, ExceptT.mk, StateT.bind, ExceptT.bindCont]
  cases act w with
  | mk outcome after => cases outcome <;> rfl

@[simp] theorem runFrom_bracket (change : Context → Context)
    (restore : Context → Context → Context) (act : Walk σ α) (w : Walker σ) :
    (bracket change restore act).runFrom w =
      ((act.runFrom { w with context := change w.context }).1,
        { (act.runFrom { w with context := change w.context }).2 with
          context := restore w.context
            (act.runFrom { w with context := change w.context }).2.context }) := rfl

/-! ## Changes of context -/

/-- Run an action inside a scope. -/
def inScope (scope : ScopeId) : Walk σ α → Walk σ α :=
  bracket (·.enter scope) fun _ c => c.leave

/-- Run an action inside the scope of a module, procedure or task. -/
def inOwner (owner : Owner) (name : String) (location : Location) (act : Walk σ α) :
    Walk σ α := do
  let c ← context
  let scope ← ofExcept (c.ownerScope owner name location)
  inScope scope act

/-- Run an action inside the scope of a block or loop. -/
def inStatement (stmt : StmtId) (location : Location) (act : Walk σ α) : Walk σ α := do
  let c ← context
  let scope ← ofExcept (c.stmtScope stmt location)
  inScope scope act

def bounding (enabled : Bool) : Walk σ α → Walk σ α :=
  bracket ({ · with inBound := enabled }) fun before c =>
    { c with inBound := before.inBound }

def initializing (precisions : Precisions) : Walk σ α → Walk σ α :=
  bracket ({ · with initial := some precisions }) fun before c =>
    { c with initial := before.initial }

def assigning (length : Option Precision) : Walk σ α → Walk σ α :=
  bracket ({ · with assigned := length }) fun before c =>
    { c with assigned := before.assigned }

end Walk

end Pearl
