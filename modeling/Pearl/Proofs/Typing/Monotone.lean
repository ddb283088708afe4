import Pearl.Proofs.Literal.AtMost
import Pearl.Proofs.Typing.Entries
import Pearl.Proofs.Walk.AtMost

/-! # Judgements at larger precisions

In two contexts that differ in precisions alone, an expression is judged alike: with the same fault,
or with entries for the same ids that have the same shape, the precisions of the first at most those
of the second. The second may fail for a concatenation that got too long.
-/

namespace Pearl

/-- The halt that depends on precisions. -/
abbrev Halt.Overflow (halt : Halt) : Prop := halt = .lengthOverflow

/-- The same context but for precisions. -/
structure Context.AtMost (c c' : Context) : Prop where
  table : c.table.AtMost c'.table
  scope : c.scope = c'.scope
  inBound : c.inBound = c'.inBound
  assigned : Option.Rel (· ≤ ·) c.assigned c'.assigned
  initial : Option.Rel Precisions.AtMost c.initial c'.initial

namespace Context.AtMost

variable {c c' : Context} (h : c.AtMost c')
include h

theorem precisions : c.precisions.AtMost c'.precisions := by
  refine rel_getD h.initial ⟨?_, ?_⟩
  · change c.table.fixedLength c.scope ≤ c'.table.fixedLength c'.scope
    rw [h.scope]
    exact h.table.fixedLength c'.scope
  · change c.table.floatLength c.scope ≤ c'.table.floatLength c'.scope
    rw [h.scope]
    exact h.table.floatLength c'.scope

theorem lookup (ident : String) : c.cursor.lookup ident = c'.cursor.lookup ident := by
  change c.table.lookup c.scope ident = c'.table.lookup c'.scope ident
  rw [h.scope]
  exact h.table.lookup c'.scope ident

theorem initializerPrecisionsOf {ty ty' : Ty} (hty : ty.AtMost ty') :
    (c.initializerPrecisionsOf ty).AtMost (c'.initializerPrecisionsOf ty') := by
  refine ⟨h.table.defaults.fixedPrecision, ?_⟩
  have hscalar := hty.scalar
  unfold Context.initializerPrecisionsOf
  generalize ty.scalar = s, ty'.scalar = s' at hscalar
  cases hscalar with
  | float le => exact le
  | _ => exact h.table.defaults.floatPrecision

end Context.AtMost

/-! ## Judgements that go together -/

namespace Judgement

/-- An entry for the same id, with precisions that are at most those of the second entry. -/
def EntryAtMost (e e' : ExprId × Typing) : Prop := e.1 = e'.1 ∧ e.2.AtMost e'.2

/-- Both judgements are good and related entry by entry, or they fail alike. What is entered before
a fault does not matter. -/
inductive Alike : Judgement → Judgement → Prop
  | ok {log log' : List (ExprId × Typing)} {r r' : Typing}
    (hlog : List.Forall₂ EntryAtMost log log') (h : r.AtMost r') : Alike ⟨log, .ok r⟩ ⟨log', .ok r'⟩
  | error (log log' : List (ExprId × Typing)) (halt : Halt) :
    Alike ⟨log, .error halt⟩ ⟨log', .error halt⟩
  | overflow (j : Judgement) (log' : List (ExprId × Typing)) :
    Alike j ⟨log', .error .lengthOverflow⟩

variable {j j' : Judgement} {k k' : Typing → Judgement}

theorem Alike.conclude {x y : Except Halt Typing} (h : Pearl.Alike Halt.Overflow Typing.AtMost x y)
    (id : ExprId) : Alike (conclude id x) (conclude id y) := by
  cases h with
  | ok h => exact .ok (.cons ⟨rfl, h⟩ .nil) h
  | error halt => exact .error [] [] halt
  | lost x h =>
    subst h
    exact .overflow _ []

theorem Alike.andThen (h : Alike j j') (hk : ∀ r r', r.AtMost r' → Alike (k r) (k' r')) :
    Alike (j.andThen k) (j'.andThen k') := by
  cases h with
  | error log log' halt => exact .error log log' halt
  | overflow j log' => exact .overflow _ log'
  | @ok log log' r r' hlog h =>
    have hnext := hk r r' h
    simp only [Judgement.andThen]
    generalize k r = next, k' r' = next' at hnext
    cases hnext with
    | ok hlog' h => exact .ok (List.rel_append hlog hlog') h
    | error _ _ halt => exact .error _ _ halt
    | overflow => exact .overflow _ _

end Judgement

namespace TypingTable

/-! ## The judgement of an expression -/

/-- Outcomes of parts of a judgement that go together. -/
abbrev PartAlike {α β : Type} : (α → β → Prop) → Except Halt α → Except Halt β → Prop :=
  Pearl.Alike Halt.Overflow

theorem elementTy_atMost {ty ty' : Ty} (h : ty.AtMost ty') :
    (elementTy ty).AtMost (elementTy ty') := by
  have hwhole := h
  cases h with
  | array element => exact element
  | _ => exact hwhole

theorem symbolTyping_atMost (id : SymbolId) {kind kind' : SymbolKind} (h : kind.AtMost kind') :
    Option.Rel Typing.AtMost (symbolTyping id kind) (symbolTyping id kind') := by
  cases h with
  | «variable» h inv => exact .some ⟨elementTy_atMost h, rfl, rfl⟩
  | procedure scope h =>
    cases h with
    | none => exact .none
    | some h => exact .some ⟨h, rfl, rfl⟩
  | module | task | semaphore => exact .none

theorem judgeRule_alike (site : ExprSite) {v v' : Except Violation Ty} (h : RuleAlike v v') :
    PartAlike Ty.AtMost (judgeRule site v) (judgeRule site v') := by
  cases h with
  | ok h => exact .ok h
  | error v => exact .error _
  | lost v h =>
    subst h
    exact .lost _ rfl

section Judge

variable {c c' : Context} (h : c.AtMost c')
include h

theorem literalTy_atMost {k k' : Constant} (hk : k.AtMost k') :
    (literalTy c k).AtMost (literalTy c' k') := by
  have hfixed : ∀ (v : Int) {g g' : Precision}, g ≤ g' →
      (literalTy c (.fixed v g)).AtMost (literalTy c' (.fixed v g')) := by
    intro v g g' le
    simp only [literalTy, h.inBound]
    split
    · exact .refl _
    · exact .fixed (rel_getD h.assigned le)
  cases hk with
  | fixed v le => exact hfixed v le
  | float v le => exact .float le
  | same k =>
    cases k with
    | fixed v g => exact hfixed v le_rfl
    | float | bits | char | duration | clock => exact .refl _

theorem judgeLiteral_alike (site : ExprSite) (value : Literal) :
    PartAlike Typing.AtMost (judgeLiteral c site value) (judgeLiteral c' site value) := by
  refine ((Literal.denote_alike h.precisions _ value).mapError fun _ => False.elim).map ?_
  intro k k' hk
  exact ⟨literalTy_atMost h hk, rfl, rfl⟩

theorem judgeName_alike (site : ExprSite) (ident : String) :
    PartAlike Typing.AtMost (judgeName c site ident) (judgeName c' site ident) := by
  unfold judgeName
  rw [h.lookup ident]
  cases c'.cursor.lookup ident with
  | none => exact .error _
  | some id =>
    have htyping := rel_bind (h.table.symbol? id) fun s s' hs => symbolTyping_atMost id hs
    dsimp only
    generalize ((c.table.symbol? id).bind fun s => symbolTyping id s.kind) = r,
      ((c'.table.symbol? id).bind fun s => symbolTyping id s.kind) = r' at htyping
    cases htyping with
    | none => exact .error _
    | some hr => exact .ok hr

/-- The least width of a number does not depend on any precision. -/
theorem judgeBound_eq (site : ExprSite) (op : Monadic) (x : Expr) :
    judgeBound c site op x = judgeBound c' site op x := by
  unfold judgeBound
  rw [h.inBound]
  split
  · cases x with
    | literal inner value =>
      have hread := Literal.denoteNegated_alike h.precisions ⟨inner.location, site.text⟩ value
      dsimp only
      generalize value.denoteNegated ⟨inner.location, site.text⟩ c.precisions = k,
        value.denoteNegated ⟨inner.location, site.text⟩ c'.precisions = k' at hread
      cases hread with
      | error d => rfl
      | lost _ hfalse => exact hfalse.elim
      | ok hk =>
        cases hk with
        | none => rfl
        | some hk => cases hk <;> rfl
    | _ => rfl
  · rfl

/-- An expression is judged alike in contexts that differ in precisions alone. Whether a number is
judged together with its sign does not depend on them. -/
theorem judge_alike (x : Expr) : Judgement.Alike (judge c x) (judge c' x) := by
  induction x with
  | dangling => exact .error [] [] _
  | literal site value => exact .conclude (judgeLiteral_alike h site value) _
  | name site ident => exact .conclude (judgeName_alike h site ident) _
  | now | taskOf => exact .conclude (.ok ⟨.refl _, rfl, rfl⟩) _
  | sizeOf site ident =>
    refine .conclude ?_ _
    exact .ok ⟨.fixed h.table.defaults.fixedLength, rfl, rfl⟩
  | attempt site semaphores =>
    refine .conclude ?_ _
    split
    · exact .error _
    · exact .ok ⟨.refl _, rfl, rfl⟩
  | monadic site op x ih =>
    simp only [judge, judgeBound_eq h]
    split
    · exact .error [] [] _
    · rename_i ty _
      have hty : (Typing.ofConstant ty).AtMost (.ofConstant ty) := ⟨.refl ty, rfl, rfl⟩
      exact .ok (.cons ⟨rfl, hty⟩ (.cons ⟨rfl, hty⟩ .nil)) hty
    · refine (ih ()).andThen fun r r' hr => .conclude ?_ _
      refine (judgeRule_alike site (op.result_alike hr.ty)).map fun ty ty' hty => ?_
      exact ⟨hty, hr.constant, rfl⟩
  | dyadic site op x y ihx ihy =>
    refine (ihx ()).andThen fun r r' hr => (ihy ()).andThen fun s s' hs => .conclude ?_ _
    have hrule := Dyadic.result_alike hr.ty hs.ty op h.table.defaults.durationRatioPrecision
    refine (judgeRule_alike site hrule).map fun ty ty' hty => ?_
    exact ⟨hty, by rw [hr.constant, hs.constant], rfl⟩
  | paren site x ih => exact (ih ()).andThen fun r r' hr => .conclude (.ok hr) _
  | cont site x ih =>
    refine (ih ()).andThen fun r r' hr => .conclude ?_ _
    have hty := hr.ty
    generalize r.ty = ty, r'.ty = ty' at hty
    cases hty with
    | reference target => exact .ok ⟨target, rfl, rfl⟩
    | _ => exact .error _
  | slice site kind x y ihx ihy =>
    refine (ihx ()).andThen fun r r' _ => (ihy ()).andThen fun s s' _ => .conclude ?_ _
    exact .ok ⟨.refl _, rfl, rfl⟩

end Judge

/-! ## Expressions at their places -/

theorem assignedLength_atMost {ty ty' : Ty} (h : ty.AtMost ty') :
    Option.Rel (· ≤ ·) (assignedLength ty) (assignedLength ty') := by
  have hscalar := h.scalar
  unfold assignedLength
  generalize ty.scalar = s, ty'.scalar = s' at hscalar
  cases hscalar with
  | fixed le => exact .some le
  | _ => exact .none

section Place

variable {c c' : Context} (h : c.AtMost c') {place place' : ExprPlace}
  (hplace : place.AtMost place')
include h hplace

theorem frame_alike : ReadAlike Context.AtMost (frame c place) (frame c' place') := by
  cases hplace with
  | plain => exact .ok h
  | clause clause =>
    cases clause with
    | condition => exact .ok h
    | first | step | last => exact .ok ⟨h.table, h.scope, rfl, h.assigned, h.initial⟩
  | initial hty =>
    exact .ok ⟨h.table, h.scope, h.inBound, h.assigned, .some (h.initializerPrecisionsOf hty)⟩
  | assigned location target =>
    have hvar := h.table.visibleVariable? c'.scope target
    simp only [frame, h.scope]
    generalize c.table.visibleVariable? c'.scope target = ty,
      c'.table.visibleVariable? c'.scope target = ty' at hvar
    cases hvar with
    | none => exact .error _
    | some hty => exact .ok ⟨h.table, h.scope, h.inBound, assignedLength_atMost hty, h.initial⟩

theorem judgeAt_alike (x : Expr) : Judgement.Alike (judgeAt c place x) (judgeAt c' place' x) := by
  have hframe := frame_alike h hplace
  unfold judgeAt
  generalize frame c place = f, frame c' place' = f' at hframe
  cases hframe with
  | ok hc => exact judge_alike hc x
  | error d => exact .error [] [] _
  | lost _ hfalse => exact hfalse.elim

end Place

/-! ## Tables -/

/-- Entries for the same expressions, with precisions that are at most those of the second table. -/
def AtMost (t t' : TypingTable) : Prop := ∀ id, Option.Rel Typing.AtMost (t.get? id) (t'.get? id)

variable {t t' : TypingTable}

theorem AtMost.insert (h : t.AtMost t') (id : ExprId) {r r' : Typing} (hr : r.AtMost r') :
    (t.insert id r).AtMost (t'.insert id r') := by
  intro other
  by_cases hother : other = id
  · subst hother
    rw [get?_insert_self, get?_insert_self]
    exact .some hr
  · rw [get?_insert_of_ne t r hother, get?_insert_of_ne t' r' hother]
    exact h other

theorem AtMost.insertAll (h : t.AtMost t') {log log' : List (ExprId × Typing)}
    (hlog : List.Forall₂ Judgement.EntryAtMost log log') :
    (t.insertAll log).AtMost (t'.insertAll log') := by
  induction hlog generalizing t t' with
  | nil => exact h
  | @cons e e' log log' he _ ih =>
    obtain ⟨hid, hr⟩ := he
    have hinsert : (t.insert e.1 e.2).AtMost (t'.insert e'.1 e'.2) := by
      rw [hid]
      exact h.insert e'.1 hr
    exact ih hinsert

variable {table table' : SymbolTable} (h : table.AtMost table')
include h

theorem atMost_inside (scope : ScopeId) :
    ((Context.new table).inside scope).AtMost ((Context.new table').inside scope) :=
  ⟨h, rfl, rfl, .none, .none⟩

/-- An errand has the same fault over both tables, or enters related typings. -/
theorem perform_alike {e e' : Errand} (he : e.AtMost e') (ht : t.AtMost t') :
    PartAlike AtMost (keep (inferring.perform (.new table) e t))
      (keep (inferring.perform (.new table') e' t')) := by
  rw [Errand.perform_inferring, Errand.perform_inferring]
  cases he with
  | missing => exact .error _
  | resolve r =>
    simp only [Errand.typed, h.outcome r]
    cases r.outcome table' with
    | error d => exact .error _
    | ok u => exact .ok ht
  | visit scope hplace x =>
    have hjudge := judgeAt_alike (atMost_inside h scope) hplace x
    simp only [Errand.typed, Errand.log]
    generalize judgeAt ((Context.new table).inside scope) _ x = j,
      judgeAt ((Context.new table').inside scope) _ x = j' at hjudge
    cases hjudge with
    | ok hlog hr => exact .ok (ht.insertAll hlog)
    | error _ _ halt => exact .error halt
    | overflow => exact .lost _ rfl

/-- A program is typed alike over two tables that differ in precisions alone. -/
theorem ofProgram_alike (n : Nat) (p : Program) :
    PartAlike AtMost (ofProgram table n p) (ofProgram table' n p) := by
  unfold ofProgram
  rw [Pass.run_eq_inTurn steady_inferring, Pass.run_eq_inTurn steady_inferring]
  refine inTurn_alike (h.agenda p) (fun e e' s s' he hs => perform_alike h he hs) fun id => ?_
  rw [get?_withRoom]
  exact .none

end TypingTable

end Pearl
