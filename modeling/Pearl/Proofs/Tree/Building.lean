import Pearl.Proofs.Along
import Pearl.Proofs.Tree.WellFormed
import Pearl.Tree.Builder

/-! # Trees that are built call by call

A session is a builder together with the ids that its calls returned. As long as a call is given
only ids that were returned before, each node refers to earlier ones, so that the tree is well
formed at any time.
-/

namespace Pearl

/-- What holds of the entries at their positions, and of one more at the next, holds after a
push. -/
theorem forall_getElem_push {α : Type} (P : Nat → α → Prop) {as : Array α} {a : α}
    (has : ∀ i (h : i < as.size), P i as[i]) (ha : P as.size a) :
    ∀ i (h : i < (as.push a).size), P i (as.push a)[i] := by
  intro i hi
  rw [Array.size_push] at hi
  rcases Nat.lt_succ_iff_lt_or_eq.mp hi with hlt | rfl
  · rw [Array.getElem_push_lt hlt]
    exact has i hlt
  · rw [Array.getElem_push_eq]
    exact ha

namespace Tree.RefersBack

variable {t : Tree} (h : t.RefersBack)
include h

theorem push_expr {node : ExprNode} (hnode : ∀ y ∈ node.form.children, y.index < t.exprs.size) :
    { t with exprs := t.exprs.push node }.RefersBack where
  operands := forall_getElem_push (fun i (n : ExprNode) => ∀ y ∈ n.form.children, y.index < i)
    h.operands hnode
  inside := h.inside
  held i hi x hx := by
    rw [Array.size_push]
    exact Nat.lt_succ_of_lt (h.held i hi x hx)
  outer i hi x hx := by
    rw [Array.size_push]
    exact Nat.lt_succ_of_lt (h.outer i hi x hx)
  bodies := h.bodies

theorem push_stmt {node : StmtNode} (hstmts : ∀ s ∈ node.form.stmts, s.index < t.stmts.size)
    (hexprs : ∀ x ∈ node.form.exprs, x.index < t.exprs.size) :
    { t with stmts := t.stmts.push node }.RefersBack where
  operands := h.operands
  inside := forall_getElem_push (fun i (n : StmtNode) => ∀ s ∈ n.form.stmts, s.index < i)
    h.inside hstmts
  held := forall_getElem_push (fun _ (n : StmtNode) => ∀ x ∈ n.form.exprs, x.index < t.exprs.size)
    h.held hexprs
  outer := h.outer
  bodies i hi s hs := by
    rw [Array.size_push]
    exact Nat.lt_succ_of_lt (h.bodies i hi s hs)

theorem add_module {m : Module ExprId StmtId}
    (houter : ∀ i ∈ m.items, ∀ x ∈ i.outer, x.index < t.exprs.size)
    (hbodies : ∀ i ∈ m.items, ∀ s ∈ i.body, s.index < t.stmts.size) :
    { t with modules := t.modules ++ [m] }.RefersBack := by
  have hitems : { t with modules := t.modules ++ [m] }.items = t.items ++ m.items := by
    rw [items, List.flatMap_append, List.flatMap_singleton]
    rfl
  refine ⟨h.operands, h.inside, h.held, ?_, ?_⟩
  · rw [hitems]
    exact List.forall_mem_append.mpr ⟨h.outer, houter⟩
  · rw [hitems]
    exact List.forall_mem_append.mpr ⟨h.bodies, hbodies⟩

end Tree.RefersBack

namespace Builder

/-- A call of a builder. An item is put together beside the tree, and gets into it with its
module. -/
inductive Call where
  | locate (location : Location)
  | expr (form : ExprForm)
  | exprAs (form : ExprForm) (text : String)
  | stmt (form : StmtForm)
  | module (name : String) (items : List (Item ExprId StmtId))
deriving Repr

namespace Call

/-- The expressions that a call is given. -/
def exprs : Call → List ExprId
  | .locate _ => []
  | .expr form | .exprAs form _ => form.children
  | .stmt form => form.exprs
  | .module _ items => items.flatMap Item.outer

/-- The statements that a call is given. -/
def stmts : Call → List StmtId
  | .locate _ | .expr _ | .exprAs _ _ => []
  | .stmt form => form.stmts
  | .module _ items => items.flatMap Item.body

end Call

/-- A builder and the ids that it returned, in order. -/
structure Session where
  builder : Builder := {}
  exprs : List ExprId := []
  stmts : List StmtId := []
deriving Repr

namespace Session

def perform (s : Session) : Call → Session
  | .locate location => { s with builder := s.builder.locate location }
  | .expr form =>
    let (id, builder) := s.builder.expr form
    { s with builder, exprs := s.exprs ++ [id] }
  | .exprAs form text =>
    let (id, builder) := s.builder.exprAs form text
    { s with builder, exprs := s.exprs ++ [id] }
  | .stmt form =>
    let (id, builder) := s.builder.stmt form
    { s with builder, stmts := s.stmts ++ [id] }
  | .module name items => { s with builder := s.builder.module name items }

/-- The session after a row of calls. -/
def run (calls : List Call) : Session := calls.foldl perform {}

/-- The call is given only ids that were returned. -/
def Permits (s : Session) (call : Call) : Prop := call.exprs ⊆ s.exprs ∧ call.stmts ⊆ s.stmts

instance (s : Session) (call : Call) : Decidable (s.Permits call) :=
  inferInstanceAs (Decidable (_ ∧ _))

/-- Each call of a row is given only ids that were returned before. -/
def Careful (calls : List Call) : Prop := Along perform Permits {} calls

instance (calls : List Call) : Decidable (Careful calls) := inferInstanceAs (Decidable (Along ..))

/-- The ids are numbered from zero without a gap, and each node refers to earlier ones. -/
structure Sound (s : Session) : Prop where
  exprs : s.exprs = (List.range s.builder.tree.exprs.size).map ExprId.mk
  stmts : s.stmts = (List.range s.builder.tree.stmts.size).map StmtId.mk
  refersBack : s.builder.tree.RefersBack

variable {s : Session}

theorem sound_empty : Sound {} where
  exprs := rfl
  stmts := rfl
  refersBack := by
    constructor <;> intro _ h <;> cases h

namespace Sound

variable (h : s.Sound)
include h

theorem mem_exprs {x : ExprId} : x ∈ s.exprs ↔ x.index < s.builder.tree.exprs.size := by
  rw [h.exprs, List.mem_map]
  constructor
  · rintro ⟨i, hi, rfl⟩
    exact List.mem_range.mp hi
  · exact fun hx => ⟨x.index, List.mem_range.mpr hx, rfl⟩

theorem mem_stmts {r : StmtId} : r ∈ s.stmts ↔ r.index < s.builder.tree.stmts.size := by
  rw [h.stmts, List.mem_map]
  constructor
  · rintro ⟨i, hi, rfl⟩
    exact List.mem_range.mp hi
  · exact fun hr => ⟨r.index, List.mem_range.mpr hr, rfl⟩

theorem exprAs {form : ExprForm} (hform : form.children ⊆ s.exprs) (text : String) :
    (s.perform (.exprAs form text)).Sound where
  exprs := by
    show s.exprs ++ [ExprId.mk s.builder.tree.exprs.size] =
      (List.range (s.builder.tree.exprs.push _).size).map ExprId.mk
    rw [Array.size_push, List.range_succ, List.map_append, h.exprs]
    rfl
  stmts := h.stmts
  refersBack := h.refersBack.push_expr fun _ hy => h.mem_exprs.mp (hform hy)

theorem stmt {form : StmtForm} (hexprs : form.exprs ⊆ s.exprs) (hstmts : form.stmts ⊆ s.stmts) :
    (s.perform (.stmt form)).Sound where
  exprs := h.exprs
  stmts := by
    show s.stmts ++ [StmtId.mk s.builder.tree.stmts.size] =
      (List.range (s.builder.tree.stmts.push _).size).map StmtId.mk
    rw [Array.size_push, List.range_succ, List.map_append, h.stmts]
    rfl
  refersBack := h.refersBack.push_stmt (fun _ hr => h.mem_stmts.mp (hstmts hr))
    fun _ hx => h.mem_exprs.mp (hexprs hx)

theorem module {name : String} {items : List (Item ExprId StmtId)}
    (hexprs : items.flatMap Item.outer ⊆ s.exprs) (hstmts : items.flatMap Item.body ⊆ s.stmts) :
    (s.perform (.module name items)).Sound where
  exprs := h.exprs
  stmts := h.stmts
  refersBack := h.refersBack.add_module
    (fun i hi _ hx => h.mem_exprs.mp (hexprs (List.mem_flatMap.mpr ⟨i, hi, hx⟩)))
    (fun i hi _ hr => h.mem_stmts.mp (hstmts (List.mem_flatMap.mpr ⟨i, hi, hr⟩)))

/-- A call that is given returned ids keeps a session sound. -/
theorem perform {call : Call} (hcall : s.Permits call) : (s.perform call).Sound := by
  obtain ⟨hexprs, hstmts⟩ := hcall
  cases call with
  | locate location => exact ⟨h.exprs, h.stmts, h.refersBack⟩
  | expr form => exact h.exprAs hexprs (form.render s.builder.textOf)
  | exprAs form text => exact h.exprAs hexprs text
  | stmt form => exact h.stmt hexprs hstmts
  | module name items => exact h.module hexprs hstmts

end Sound

theorem Careful.sound {calls : List Call} (h : Careful calls) : (run calls).Sound :=
  h.foldl (fun _ _ hs hcall => hs.perform hcall) sound_empty

end Session

end Builder

end Pearl
