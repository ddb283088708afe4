import Pearl.Proofs.Literal.Faults
import Pearl.Proofs.Operator.Precision
import Pearl.Proofs.Typing.Closure
import Pearl.Proofs.Typing.LiteralPrecision

/-! # Where a judgement fails

A judgement that fails does so at one part of the expression, with the fault of that part: the first
that cannot be typed in the order in which parts are completed.
-/

namespace Pearl

/-- What the rule of a form makes of the types of its operands. Forms that have no operands, and
those that take operands of any type, have no rule. -/
def ExprForm.rule? (ratio : Precision) : ExprForm → List Ty → Option (Except Violation Ty)
  | .monadic op _, [s] => some (op.result s)
  | .dyadic op _ _, [s, t] => some (op.result ratio s t)
  | .cont _, [.reference target] => some (.ok target)
  | .cont _, [_] => some (.error .illegalExpression)
  | _, _ => none

theorem ExprForm.rule?_cont {ratio : Precision} {id : ExprId} {s : Ty}
    (hs : ∀ target, s = .reference target → False) :
    (ExprForm.cont id).rule? ratio [s] = some (.error .illegalExpression) := by
  cases s with
  | reference target => exact (hs target rfl).elim
  | _ => rfl

/-- Only a concatenation of strings runs out of length. -/
theorem ExprForm.tooLong_of_rule? {ratio : Precision} {form : ExprForm} {tys : List Ty}
    (h : form.rule? ratio tys = some (.error .lengthOverflow)) :
    ∃ x y s t, form = .dyadic .cat x y ∧ tys = [s, t] ∧ s.TooLong t := by
  unfold rule? at h
  split at h
  · exact absurd (Option.some.inj h) (Monadic.result_ne_overflow _ _)
  · obtain ⟨rfl, hlong⟩ := Dyadic.tooLong_of_result (Option.some.inj h)
    exact ⟨_, _, _, _, rfl, rfl, hlong⟩
  · cases h
  · cases h
  · cases h

/-- Operands whose types run out of length are the two strings of a concatenation. -/
theorem ExprForm.tooLong_of_operands {α : Type} {R : α → Typing → Prop} {ratio : Precision}
    {form : ExprForm} {ys : List α} {rs : List Typing} (hrs : List.Forall₂ R ys rs)
    (h : form.rule? ratio (rs.map Typing.ty) = some (.error .lengthOverflow)) :
    ∃ a b y z r s, form = .dyadic .cat a b ∧ ys = [y, z] ∧ R y r ∧ R z s ∧ r.ty.TooLong s.ty := by
  obtain ⟨a, b, s, t, hform, htys, hlong⟩ := tooLong_of_rule? h
  rcases hrs with _ | ⟨hr, _ | ⟨hs, _ | _⟩⟩ <;> cases htys
  exact ⟨a, b, _, _, _, _, hform, rfl, hr, hs, hlong⟩

theorem Violation.eq_lengthOverflow {v : Violation} {location : Location} {text : String}
    (h : v.halt location text = .lengthOverflow) : v = .lengthOverflow := by
  cases v with
  | lengthOverflow => rfl
  | illegalExpression | typeMismatch | notYetImplemented => cases h

/-- Complaints that only the rules have. -/
def Complaint.OfRule : Complaint → Prop
  | .illegalExpression | .typeMismatch | .notYetImplemented _ => True
  | .numberOutOfRange | .unknownIdentifier | .valueOutOfBounds | .internalCompilerError => False

/-- Ends of an analysis that only the rules bring about. -/
def Halt.OfRule : Halt → Prop
  | .reported d => d.complaint.OfRule
  | .lengthOverflow => True
  | .danglingReference => False

namespace TypingTable

open Judgement

/-- The operands of an expression can be typed, and its rule refuses their types. -/
def Violates (c : Context) (x : Expr) (v : Violation) : Prop :=
  ∃ form, x.form? = some form ∧
    ∃ rs, List.Forall₂ (fun y r => (judge c y).outcome = .ok r) x.operands rs ∧
      form.rule? c.table.defaults.durationRatioPrecision (rs.map Typing.ty) = some (.error v)

/-- The judgement of an expression fails at the expression itself. -/
inductive FailsAt (c : Context) : Expr → Halt → Prop
  | dangling (id : ExprId) : FailsAt c (.dangling id) .danglingReference
  | literal {site : ExprSite} {value : Literal} {d : Diagnostic}
    (h : value.denote ⟨site.location, site.text⟩ c.precisions = .error d) :
    FailsAt c (.literal site value) (.reported d)
  /-- a number that does not go with its sign, in a loop bound -/
  | bound {site inner : ExprSite} {value : Literal} {x : Unit → Expr} {d : Diagnostic}
    (hx : x () = .literal inner value)
    (h : value.denoteNegated ⟨inner.location, site.text⟩ c.precisions = .error d) :
    FailsAt c (.monadic site .minus x) (.reported d)
  | unknown {site : ExprSite} {ident : String} (h : c.cursor.lookup ident = none) :
    FailsAt c (.name site ident) (.reported ⟨.unknownIdentifier, site.location, ident⟩)
  /-- a name of something that has no value -/
  | valueless {site : ExprSite} {ident : String} {id : SymbolId}
    (hid : c.cursor.lookup ident = some id)
    (h : ((c.table.symbol? id).bind fun s => symbolTyping id s.kind) = none) :
    FailsAt c (.name site ident) (.reported (.internal site.location ident))
  | attempt (site : ExprSite) :
    FailsAt c (.attempt site []) (.reported (.internal site.location site.text))
  /-- operands whose types no rule takes -/
  | rule {x : Expr} {site : ExprSite} {v : Violation} (hsite : x.site? = some site)
    (h : Violates c x v) :
    FailsAt c x (v.halt site.location site.text)

variable {c : Context} {x y : Expr} {halt : Halt}

theorem failsAt_of_judgeLiteral {site : ExprSite} {value : Literal}
    (h : judgeLiteral c site value = .error halt) : FailsAt c (.literal site value) halt := by
  unfold judgeLiteral at h
  cases hdenote : value.denote ⟨site.location, site.text⟩ c.precisions with
  | ok k =>
    rw [hdenote] at h
    cases h
  | error d =>
    rw [hdenote] at h
    cases h
    exact .literal hdenote

theorem failsAt_of_judgeName {site : ExprSite} {ident : String}
    (h : judgeName c site ident = .error halt) : FailsAt c (.name site ident) halt := by
  unfold judgeName at h
  split at h
  · rename_i hnone
    cases h
    exact .unknown hnone
  · rename_i id hid
    split at h
    · rename_i hnone
      cases h
      exact .valueless hid hnone
    · cases h

theorem failsAt_of_judgeBound {site : ExprSite} {op : Monadic} {x : Unit → Expr}
    (h : judgeBound c site op (x ()) = .error halt) : FailsAt c (.monadic site op x) halt := by
  unfold judgeBound at h
  split at h
  · rename_i hop
    obtain ⟨rfl, -⟩ := hop
    split at h
    · rename_i inner value hx
      split at h
      · cases h
      · cases h
      · rename_i d hd
        cases h
        exact .bound hx hd
    · cases h
  · cases h

/-- The rule of an operator fails at the operator, if its operands can be typed. -/
theorem failsAt_of_judgeRule {site : ExprSite} {form : ExprForm} {rs : List Typing} {id : ExprId}
    {v : Except Violation Ty} {f : Ty → Typing} (hsite : x.site? = some site)
    (hform : x.form? = some form)
    (hrs : List.Forall₂ (fun y r => (judge c y).outcome = .ok r) x.operands rs)
    (hv : form.rule? c.table.defaults.durationRatioPrecision (rs.map Typing.ty) = some v)
    (h : (conclude id ((judgeRule site v).map f)).outcome = .error halt) : FailsAt c x halt := by
  have hrule := map_eq_error.mp (error_of_conclude h)
  cases v with
  | ok ty => cases hrule
  | error v =>
    cases hrule
    exact .rule hsite ⟨form, hform, rs, hrs, hv⟩

/-! ## Parts that can be typed -/

/-- A number that is judged together with its sign has a type of its own as well. -/
theorem exists_fixed_of_judgeBound {site inner : ExprSite} {op : Monadic} {value : Literal}
    {ty : Ty} (h : judgeBound c site op (.literal inner value) = .ok (some ty)) :
    ∃ g, (judge c (.literal inner value)).outcome = .ok (.ofConstant (.fixed g)) := by
  obtain ⟨rfl, g, rfl⟩ := fixed_of_judgeBound h
  obtain ⟨-, k, hk, hfixed⟩ := literalTy_of_judgeBound h
  simp only [judge, judgeLiteral, Literal.denote_of_site _ hk]
  cases k with
  | fixed v g => exact ⟨_, rfl⟩
  | _ => cases hfixed

theorem exists_judge_of_operand {r : Typing} (h : (judge c x).outcome = .ok r)
    (hy : y ∈ x.operands) : ∃ s, (judge c y).outcome = .ok s := by
  cases x with
  | dangling | literal | name | attempt | now | sizeOf | taskOf => cases hy
  | monadic site op x =>
    rw [List.mem_singleton.mp hy]
    rcases judge_monadic_cases h with ⟨inner, value, ty, hx, hbound, -⟩ | ⟨s, ty, -, hs, -⟩
    · rw [hx] at hbound ⊢
      obtain ⟨g, hg⟩ := exists_fixed_of_judgeBound hbound
      exact ⟨_, hg⟩
    · exact ⟨s, hs⟩
  | paren site x | cont site x =>
    rw [List.mem_singleton.mp hy]
    obtain ⟨s, hs, -⟩ := ok_of_andThen h
    exact ⟨s, hs⟩
  | dyadic site op x z | slice site kind x z =>
    obtain ⟨s, s', hs, hs', -⟩ := ok_of_andThen₂ h
    rcases List.mem_pair.mp hy with rfl | rfl
    · exact ⟨s, hs⟩
    · exact ⟨s', hs'⟩

theorem exists_judge_of_part {r : Typing} (h : (judge c x).outcome = .ok r) (hy : x.Part y) :
    ∃ s, (judge c y).outcome = .ok s := by
  induction hy with
  | refl => exact ⟨r, h⟩
  | tail _ hz ih =>
    obtain ⟨s, hs⟩ := ih
    exact exists_judge_of_operand hs hz

/-! ## The first part that fails -/

/-- A fault at a part of an expression before which all parts can be typed. The number in a loop
bound is judged together with its sign, so that operands of the part itself are left out here. -/
def FailsFirst (c : Context) (x : Expr) (halt : Halt) : Prop :=
  ∃ before y after, x.postorder = before ++ y :: after ∧
    (∀ z ∈ before, z ∈ y.operands ∨ ∃ r, (judge c z).outcome = .ok r) ∧ FailsAt c y halt

theorem FailsAt.first (h : FailsAt c x halt)
    (hbefore : ∀ y ∈ x.operands, ∃ r, (judge c y).outcome = .ok r) : FailsFirst c x halt := by
  refine ⟨x.operands.flatMap Expr.postorder, x, [], x.postorder_eq, ?_, h⟩
  intro z hz
  obtain ⟨y, hy, hz⟩ := List.mem_flatMap.mp hz
  obtain ⟨r, hr⟩ := hbefore y hy
  exact .inr (exists_judge_of_part hr (Expr.mem_postorder_iff.mp hz))

/-- What fails first in an operand fails first in the expression, if the operands before it can be
typed. -/
theorem FailsFirst.operand (h : FailsFirst c y halt) (left right : List Expr)
    (hx : x.operands = left ++ y :: right)
    (hleft : ∀ z ∈ left, ∃ r, (judge c z).outcome = .ok r) : FailsFirst c x halt := by
  obtain ⟨before, w, after, hy, hbefore, hfails⟩ := h
  refine ⟨left.flatMap Expr.postorder ++ before, w, after ++ right.flatMap Expr.postorder ++ [x],
    ?_, ?_, hfails⟩
  · rw [x.postorder_eq, hx, List.flatMap_append, List.flatMap_cons, hy]
    simp only [List.append_assoc, List.cons_append]
  · intro z hz
    rcases List.mem_append.mp hz with hz | hz
    · obtain ⟨u, hu, hz⟩ := List.mem_flatMap.mp hz
      obtain ⟨r, hr⟩ := hleft u hu
      exact .inr (exists_judge_of_part hr (Expr.mem_postorder_iff.mp hz))
    · exact hbefore z hz

/-- A judgement that fails does so at the first part that cannot be typed. -/
theorem failsFirst_of_judge (h : (judge c x).outcome = .error halt) : FailsFirst c x halt := by
  induction x with
  | dangling id =>
    cases h
    exact (FailsAt.dangling id).first (List.forall_mem_nil _)
  | literal site value =>
    exact (failsAt_of_judgeLiteral (error_of_conclude h)).first (List.forall_mem_nil _)
  | name site ident =>
    exact (failsAt_of_judgeName (error_of_conclude h)).first (List.forall_mem_nil _)
  | now | sizeOf | taskOf => cases h
  | attempt site semaphores =>
    cases semaphores with
    | nil =>
      cases h
      exact (FailsAt.attempt site).first (List.forall_mem_nil _)
    | cons => cases h
  | monadic site op x ih =>
    cases hbound : judgeBound c site op (x ()) with
    | error halt' =>
      simp only [judge, hbound] at h
      cases h
      refine ⟨(x ()).postorder, _, [], rfl, ?_, failsAt_of_judgeBound hbound⟩
      obtain ⟨inner, value, hx⟩ := exists_literal_of_judgeBound hbound (by simp)
      intro z hz
      rw [hx] at hz
      rw [Expr.operands, hx]
      exact .inl hz
    | ok bound =>
      simp only [judge, hbound] at h
      cases bound with
      | some ty => cases h
      | none =>
        rcases error_of_andThen h with h | ⟨r, hr, h⟩
        · exact (ih () h).operand [] [] rfl (List.forall_mem_nil _)
        · have hrs : List.Forall₂ (fun y r => (judge c y).outcome = .ok r) [x ()] [r] :=
            .cons hr .nil
          refine (failsAt_of_judgeRule rfl rfl hrs rfl h).first ?_
          exact List.forall_mem_singleton.mpr ⟨r, hr⟩
  | paren site x ih =>
    rcases error_of_andThen h with h | ⟨r, -, h⟩
    · exact (ih () h).operand [] [] rfl (List.forall_mem_nil _)
    · cases h
  | cont site x ih =>
    rcases error_of_andThen h with h | ⟨r, hr, h⟩
    · exact (ih () h).operand [] [] rfl (List.forall_mem_nil _)
    · have hrule := error_of_conclude h
      split at hrule
      · cases hrule
      · rename_i hty
        cases hrule
        have hrs : List.Forall₂ (fun y r => (judge c y).outcome = .ok r) [x ()] [r] := .cons hr .nil
        have hviolates : Violates c (.cont site x) .illegalExpression :=
          ⟨_, rfl, [r], hrs, ExprForm.rule?_cont hty⟩
        refine (FailsAt.rule rfl hviolates).first ?_
        exact List.forall_mem_singleton.mpr ⟨r, hr⟩
  | dyadic site op x y ihx ihy =>
    rcases error_of_andThen h with h | ⟨r, hr, h⟩
    · exact (ihx () h).operand [] [y ()] rfl (List.forall_mem_nil _)
    · rcases error_of_andThen h with h | ⟨s, hs, h⟩
      · exact (ihy () h).operand [x ()] [] rfl (List.forall_mem_singleton.mpr ⟨r, hr⟩)
      · have hrs : List.Forall₂ (fun y r => (judge c y).outcome = .ok r) [x (), y ()] [r, s] :=
          .cons hr (.cons hs .nil)
        refine (failsAt_of_judgeRule rfl rfl hrs rfl h).first ?_
        exact List.forall_mem_cons.mpr ⟨⟨r, hr⟩, List.forall_mem_singleton.mpr ⟨s, hs⟩⟩
  | slice site kind x y ihx ihy =>
    rcases error_of_andThen h with h | ⟨r, hr, h⟩
    · exact (ihx () h).operand [] [y ()] rfl (List.forall_mem_nil _)
    · rcases error_of_andThen h with h | ⟨s, -, h⟩
      · exact (ihy () h).operand [x ()] [] rfl (List.forall_mem_singleton.mpr ⟨r, hr⟩)
      · cases h

/-- The part that a judgement fails at. -/
theorem exists_failsAt_of_judge (h : (judge c x).outcome = .error halt) :
    ∃ y, x.Part y ∧ FailsAt c y halt := by
  obtain ⟨before, y, after, hsplit, -, hfails⟩ := failsFirst_of_judge h
  refine ⟨y, Expr.mem_postorder_iff.mp ?_, hfails⟩
  rw [hsplit]
  exact List.mem_append_cons_self

/-- Where the rules end an analysis, a rule is violated. -/
theorem FailsAt.violates (h : FailsAt c x halt) (hhalt : halt.OfRule) :
    ∃ site v, x.site? = some site ∧ Violates c x v ∧ v.halt site.location site.text = halt := by
  cases h with
  | dangling | unknown | valueless | attempt => exact hhalt.elim
  | literal h => rcases Literal.blames_denote _ _ _ _ h with rfl | rfl <;> exact hhalt.elim
  | bound _ h => rcases Literal.blames_denoteNegated _ _ _ _ h with rfl | rfl <;> exact hhalt.elim
  | rule hsite hv => exact ⟨_, _, hsite, hv, rfl⟩

theorem FailsAt.violates_of_overflow (h : FailsAt c x .lengthOverflow) :
    Violates c x .lengthOverflow := by
  obtain ⟨site, v, -, hv, hhalt⟩ := h.violates trivial
  exact Violation.eq_lengthOverflow hhalt ▸ hv

/-- The judgement of an expression without dangling parts comes upon none. -/
theorem judge_ne_dangling (hx : x.Whole) : (judge c x).outcome ≠ .error .danglingReference := by
  intro h
  obtain ⟨y, hy, hfails⟩ := exists_failsAt_of_judge h
  generalize hhalt : Halt.danglingReference = halt at hfails
  cases hfails with
  | dangling => exact hx.part hy
  | @rule _ _ v => cases v <;> cases hhalt
  | _ => cases hhalt

end TypingTable

namespace Errand

open TypingTable

theorem typed_ne_dangling {table : SymbolTable} {e : Errand} (he : e.Whole) :
    e.typed table ≠ .error .danglingReference := by
  intro h
  cases e with
  | missing => exact he
  | resolve r =>
    obtain ⟨d, -, hd⟩ := outcome_of_typed h
    cases hd
  | visit scope place x =>
    rcases fault_of_typed h with ⟨d, -, hd⟩ | ⟨c, -, hjudge⟩
    · cases hd
    · exact judge_ne_dangling he hjudge

end Errand

end Pearl
