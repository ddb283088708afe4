import Pearl.Proofs.Typing.Entries

/-! # The precision of a literal

What a table of types says of a literal depends on its position alone: on the minus sign before it,
the place of its expression and the scope. Of the things that may change a precision, a place brings
one at most, and the frame of the place carries it unchanged to every depth of the expression.
-/

namespace Pearl

/-! ## What a place brings -/

namespace ExprPlace

/-- Whether fixed literals take their least width. -/
def isBound : ExprPlace → Bool
  | .clause .first | .clause .step | .clause .last => true
  | .clause .condition | .plain | .assigned .. | .initial _ => false

/-- The precision that the target of an assignment imposes on fixed literals. -/
def imposed (table : SymbolTable) (scope : ScopeId) : ExprPlace → Option Precision
  | .assigned _ target => match (table.visibleVariable? scope target).map Ty.scalar with
    | some (.fixed g) => some g
    | _ => none
  | .plain | .clause _ | .initial _ => none

end ExprPlace

namespace TypingTable

theorem frame_eq {table : SymbolTable} {scope : ScopeId} {place : ExprPlace} {c : Context}
    (h : frame ((Context.new table).inside scope) place = .ok c) :
    c.precisions = place.precisions table scope ∧ c.inBound = place.isBound ∧
      c.assigned = place.imposed table scope := by
  cases place with
  | plain =>
    cases h
    exact ⟨rfl, rfl, rfl⟩
  | clause clause => cases clause <;> cases h <;> exact ⟨rfl, rfl, rfl⟩
  | assigned location target =>
    have hvar : ((Context.new table).inside scope).table.visibleVariable?
        ((Context.new table).inside scope).scope target = table.visibleVariable? scope target := rfl
    simp only [frame, hvar] at h
    cases hty : table.visibleVariable? scope target with
    | none =>
      rw [hty] at h
      cases h
    | some ty =>
      rw [hty] at h
      cases h
      refine ⟨rfl, rfl, ?_⟩
      simp only [ExprPlace.imposed, hty, Option.map_some, assignedLength]
      cases ty.scalar <;> rfl
  | initial ty =>
    cases h
    exact ⟨rfl, rfl, rfl⟩

/-! ## Literals of an expression -/

/-- A minus sign keeps the type of what it is applied to. -/
theorem eq_of_minus_result {ty ty' : Ty} (h : Monadic.minus.result ty = .ok ty') : ty' = ty := by
  cases ty with
  | fixed | float | duration => exact (Except.ok.inj h).symm
  | bit | char | clock | array | task | reference => cases h

section Sign

variable {c : Context} {site inner : ExprSite} {value : Literal} {k : Constant}

theorem judgeBound_literal (h : c.inBound = true) :
    judgeBound c site .minus (.literal inner value) =
      match value.denoteNegated ⟨inner.location, site.text⟩ c.precisions with
      | .ok (some (.fixed v _)) => .ok (some (.fixed (fixedWidth v)))
      | .ok _ => .ok none
      | .error d => .error (.reported d) := by
  unfold judgeBound
  exact if_pos ⟨rfl, h⟩

/-- In a loop bound, a number with its sign takes the width of the opposite constant. -/
theorem literalTy_of_judgeBound {ty : Ty}
    (h : judgeBound c site .minus (.literal inner value) = .ok (some ty)) :
    value.isNumeric = true ∧ ∃ k, value.denote ⟨inner.location, site.text⟩ c.precisions = .ok k ∧
      ty = literalTy c k.opposite := by
  cases hin : c.inBound with
  | false => simp [judgeBound, hin] at h
  | true =>
    rw [judgeBound_literal hin] at h
    cases hnum : value.isNumeric with
    | false =>
      rw [Literal.denoteNegated_of_not_isNumeric hnum] at h
      cases h
    | true =>
      rw [Literal.denoteNegated_of_isNumeric hnum] at h
      cases hk : value.denote ⟨inner.location, site.text⟩ c.precisions with
      | error d =>
        rw [hk] at h
        cases h
      | ok k =>
        refine ⟨rfl, k, rfl, ?_⟩
        simp only [hk, Except.bind] at h
        by_cases hfits : k.opposite.Fits
        · rw [if_pos hfits] at h
          cases hopp : k.opposite with
          | fixed v g =>
            rw [hopp] at h
            cases h
            simp only [literalTy, hin, if_true]
          | float | bits | char | duration | clock =>
            rw [hopp] at h
            cases h
        · rw [if_neg hfits] at h
          cases h

/-- Elsewhere, the sign of a number does not matter for its type. -/
theorem literalTy_opposite (h : judgeBound c site .minus (.literal inner value) = .ok none)
    (hnum : value.isNumeric = true)
    (hk : value.denote ⟨inner.location, site.text⟩ c.precisions = .ok k) :
    literalTy c k.opposite = literalTy c k := by
  cases k with
  | float | bits | char | duration | clock => rfl
  | fixed v g =>
    cases hin : c.inBound with
    | false => simp only [Constant.opposite, literalTy, hin, Bool.false_eq_true, if_false]
    | true =>
      rw [judgeBound_literal hin, Literal.denoteNegated_of_isNumeric hnum, hk] at h
      simp only [Except.bind] at h
      by_cases hfits : (Constant.fixed v g).opposite.Fits
      · rw [if_pos hfits] at h
        cases h
      · rw [if_neg hfits] at h
        cases h

end Sign

end TypingTable

open TypingTable

/-- A literal is entered at the type of its constant, and so is a minus sign that belongs to it. -/
def Occurrence.EnteredIn (c : Context) (log : List (ExprId × Typing)) (o : Occurrence) : Prop :=
  ∃ k, o.value.denote o.blamed c.precisions = .ok k ∧
    (o.site.id, .ofConstant (literalTy c (o.signed k))) ∈ log ∧
    ∀ minus, o.sign = some minus → o.value.isNumeric = true →
      (minus.id, .ofConstant (literalTy c (o.signed k))) ∈ log

namespace Occurrence

variable {c : Context} {r : Typing} {scope : ScopeId} {place : ExprPlace} {site inner : ExprSite}
  {value : Literal}

theorem EnteredIn.mono {log log' : List (ExprId × Typing)} {o : Occurrence} (h : o.EnteredIn c log)
    (hsub : log ⊆ log') : o.EnteredIn c log' := by
  obtain ⟨k, hk, hsite, hminus⟩ := h
  exact ⟨k, hk, hsub hsite, fun minus hm hnum => hsub (hminus minus hm hnum)⟩

theorem denote_of_judgeLiteral (h : (judge c (.literal site value)).outcome = .ok r) :
    ∃ k, value.denote ⟨site.location, site.text⟩ c.precisions = .ok k ∧
      r = .ofConstant (literalTy c k) ∧ (judge c (.literal site value)).log = [(site.id, r)] := by
  obtain ⟨hr, hlog⟩ := Judgement.ok_of_conclude h
  cases hk : value.denote ⟨site.location, site.text⟩ c.precisions with
  | error d =>
    rw [judgeLiteral, hk] at hr
    cases hr
  | ok k =>
    rw [judgeLiteral, hk] at hr
    exact ⟨k, rfl, (Except.ok.inj hr).symm, hlog⟩

theorem enteredIn_unsigned (h : (judge c (.literal site value)).outcome = .ok r) :
    (Occurrence.mk scope place none site value).EnteredIn c
      (judge c (.literal site value)).log := by
  obtain ⟨k, hk, rfl, hlog⟩ := denote_of_judgeLiteral h
  refine ⟨k, hk, ?_, fun _ hm => nomatch hm⟩
  rw [hlog]
  exact List.mem_singleton_self _

theorem enteredIn_signed {x : Unit → Expr} (hx : x () = .literal inner value)
    (h : (judge c (.monadic site .minus x)).outcome = .ok r) :
    (Occurrence.mk scope place (some site) inner value).EnteredIn c
      (judge c (.monadic site .minus x)).log := by
  rcases judge_monadic_cases h with ⟨inner', value', ty, hx', hbound, hj⟩ |
    ⟨s, ty, hbound, hs, hty, rfl, hlog⟩
  · cases hx.symm.trans hx'
    rw [hx] at hbound
    obtain ⟨hnum, k, hk, rfl⟩ := literalTy_of_judgeBound hbound
    refine ⟨k, Literal.denote_of_site _ hk, ?_, fun minus hm _ => ?_⟩
    · simp [hj, signed, isNegated, hnum]
    · cases hm
      simp [hj, signed, isNegated, hnum]
  · rw [hx] at hbound hs hlog
    obtain ⟨k, hk, rfl, hinner⟩ := denote_of_judgeLiteral hs
    have hsigned : literalTy c ((Occurrence.mk scope place (some site) inner value).signed k) =
        literalTy c k := by
      unfold signed
      split
      · rename_i hneg
        exact literalTy_opposite hbound hneg (Literal.denote_of_site _ hk)
      · rfl
    refine ⟨k, Literal.denote_of_site _ hk, ?_, fun minus hm _ => ?_⟩
    · simp [hsigned, hlog, hinner]
    · cases hm
      rw [eq_of_minus_result hty, hinner] at hlog
      simp [hsigned, hlog, Typing.ofConstant]

/-- Every literal of an expression that can be typed is entered. -/
theorem enteredIn_of_mem {x : Expr} (h : (judge c x).outcome = .ok r) :
    ∀ o ∈ x.occurrences scope place, o.EnteredIn c (judge c x).log := by
  induction x generalizing r with
  | dangling => cases h
  | name | attempt | now | sizeOf | taskOf => exact fun _ ho => nomatch ho
  | literal site value => exact List.forall_mem_singleton.mpr (enteredIn_unsigned h)
  | monadic site op x ih =>
    rcases Expr.minus_literal_or op (x ()) with ⟨rfl, inner, value, hx⟩ | hx
    · rw [Expr.occurrences_minus_literal hx]
      exact List.forall_mem_singleton.mpr (enteredIn_signed hx h)
    · rw [Expr.occurrences_monadic hx]
      intro o ho
      rcases judge_monadic_cases h with ⟨inner, value, ty, hlit, hbound, -⟩ |
        ⟨s, ty, -, hs, -, -, hlog⟩
      · refine (hx inner value ?_ hlit).elim
        by_contra hop
        simp [judgeBound, hop] at hbound
      · rw [hlog]
        exact (ih () hs o ho).mono (List.subset_append_left ..)
  | paren _ x ih | cont _ x ih =>
    intro o ho
    obtain ⟨s, hs, h, hlog⟩ := Judgement.ok_of_andThen h
    exact (ih () hs o ho).mono (hlog.symm ▸ List.subset_append_left ..)
  | dyadic _ _ x y ihx ihy | slice _ _ x y ihx ihy =>
    obtain ⟨s, hs, h, hlog⟩ := Judgement.ok_of_andThen h
    obtain ⟨s', hs', h, hlog'⟩ := Judgement.ok_of_andThen h
    refine List.forall_mem_append.mpr ⟨fun o ho => ?_, fun o ho => ?_⟩
    · exact (ihx () hs o ho).mono (hlog.symm ▸ List.subset_append_left ..)
    · refine (ihy () hs' o ho).mono (List.Subset.trans (hlog'.symm ▸ List.subset_append_left ..) ?_)
      exact hlog.symm ▸ List.subset_append_right ..

/-! ## Literals of a program -/

theorem position_of_mem {x : Expr} {o : Occurrence} (h : o ∈ x.occurrences scope place) :
    o.scope = scope ∧ o.place = place := by
  induction x with
  | dangling | name | attempt | now | sizeOf | taskOf => cases h
  | literal site value =>
    rw [List.mem_singleton.mp h]
    exact ⟨rfl, rfl⟩
  | monadic site op x ih =>
    rcases Expr.minus_literal_or op (x ()) with ⟨rfl, inner, value, hx⟩ | hx
    · rw [Expr.occurrences_minus_literal hx] at h
      rw [List.mem_singleton.mp h]
      exact ⟨rfl, rfl⟩
    · rw [Expr.occurrences_monadic hx] at h
      exact ih () h
  | paren _ x ih | cont _ x ih => exact ih () h
  | dyadic _ _ x y ihx ihy | slice _ _ x y ihx ihy =>
    rcases List.mem_append.mp h with h | h
    · exact ihx () h
    · exact ihy () h

/-- The type of a literal with the given constant, from its position. -/
def ty (table : SymbolTable) (o : Occurrence) (k : Constant) : Ty :=
  match o.signed k with
  | .fixed v g =>
    .fixed (if o.place.isBound then fixedWidth v else (o.place.imposed table o.scope).getD g)
  | k => k.ty

/-- Every literal of a program that can be typed has a constant, and the table has its type, also
for a minus sign that belongs to it. -/
theorem get?_of_mem_occurrences {table : SymbolTable} {n : Nat} {p : Program} {t : TypingTable}
    (h : TypingTable.ofProgram table n p = .ok t) (hids : p.exprIds.Nodup) {o : Occurrence}
    (ho : o ∈ p.occurrences table) :
    ∃ k, o.value.denote o.blamed (o.place.precisions table o.scope) = .ok k ∧
      t.get? o.site.id = some (.ofConstant (o.ty table k)) ∧
      ∀ minus, o.sign = some minus → o.value.isNumeric = true →
        t.get? minus.id = some (.ofConstant (o.ty table k)) := by
  rw [Program.occurrences_eq_flatMap] at ho
  obtain ⟨e, he, ho⟩ := List.mem_flatMap.mp ho
  cases e with
  | resolve | missing => cases ho
  | visit scope place x =>
    obtain ⟨rfl, rfl⟩ := position_of_mem ho
    obtain ⟨c, r, hframe, hj, hlog⟩ :=
      Errand.judge_of_typed ((TypingTable.ofProgram_eq_ok_iff.mp h).1 _ he)
    obtain ⟨hprecisions, hbound, hassigned⟩ := frame_eq hframe
    have hty : ∀ k, literalTy c (o.signed k) = o.ty table k := by
      intro k
      cases hs : o.signed k <;> simp only [literalTy, ty, hs, hbound, hassigned]
    obtain ⟨k, hk, hsite, hminus⟩ := enteredIn_of_mem hj o ho
    rw [hprecisions] at hk
    rw [← hlog, hty] at hsite
    refine ⟨k, hk, TypingTable.get?_of_mem_log h hids he hsite, fun minus hm hnum => ?_⟩
    have hentry := hminus minus hm hnum
    rw [← hlog, hty] at hentry
    exact TypingTable.get?_of_mem_log h hids he hentry

/-- The precision of a fixed literal of value `v`. In a bound of a loop it is the least width that
holds the value, in an assignment to a fixed variable that of the variable. Elsewhere it is the one
stated, else that of the language in an initialiser and that of the scope in any other place. -/
def fixedPrecision (table : SymbolTable) (o : Occurrence) (stated : Option Precision) (v : Int) :
    Precision :=
  match o.place with
  | .clause .first | .clause .step | .clause .last => fixedWidth (if o.sign.isSome then -v else v)
  | .assigned _ target => match (table.visibleVariable? o.scope target).map Ty.scalar with
    | some (.fixed g) => g
    | _ => stated.getD (table.fixedLength o.scope)
  | .initial _ => stated.getD table.defaults.fixedPrecision
  | .clause .condition | .plain => stated.getD (table.fixedLength o.scope)

/-- The precision of a float literal: the one stated, else that of the initialised float variable,
that of the language for an initialiser of another variable, and that of the scope in any other
place. -/
def floatPrecision (table : SymbolTable) (o : Occurrence) (stated : Option Precision) : Precision :=
  stated.getD <| match o.place with
    | .initial ty => match ty.scalar with
      | .float g => g
      | _ => table.defaults.floatPrecision
    | .plain | .clause _ | .assigned .. => table.floatLength o.scope

theorem ty_fixed {table : SymbolTable} {o : Occurrence} {text : String} {stated : Option Precision}
    (h : o.value = .fixed text stated) (v : Int) :
    o.ty table (.fixed v (stated.getD (o.place.precisions table o.scope).fixed)) =
      .fixed (o.fixedPrecision table stated v) := by
  obtain ⟨scope, place, sign, site, value⟩ := o
  cases h
  cases place with
  | plain => cases sign <;> rfl
  | clause clause => cases clause <;> cases sign <;> rfl
  | assigned location target =>
    have himposed (g : Precision) :
        ((ExprPlace.assigned location target).imposed table scope).getD g =
        match (table.visibleVariable? scope target).map Ty.scalar with
        | some (.fixed g') => g'
        | _ => g := by
      simp only [ExprPlace.imposed]
      split <;> rfl
    cases sign <;> exact congrArg Ty.fixed (himposed _)
  | initial ty => cases sign <;> rfl

theorem ty_float {table : SymbolTable} {o : Occurrence} {text : String} {stated : Option Precision}
    (h : o.value = .float text stated) (v : Binary64) :
    o.ty table (.float v (stated.getD (o.place.precisions table o.scope).float)) =
      .float (o.floatPrecision table stated) := by
  obtain ⟨scope, place, sign, site, value⟩ := o
  cases h
  cases place <;> cases sign <;> rfl

end Occurrence

namespace TypingTable

/-- The literals with positions are all literals of a tree that can be typed, and the position of
each decides its precision. A minus sign directly before a number has the type of the number. -/
theorem literal_precision_by_position (table : SymbolTable) (tree : Tree) (t : TypingTable)
    (h : ofTree table tree = .ok t) (hids : tree.program.exprIds.Nodup) :
    (tree.program.occurrences table).map (fun o => (o.site, o.value)) = tree.program.literals ∧
      ∀ o ∈ tree.program.occurrences table,
        (∀ text stated, o.value = .fixed text stated →
          ∃ v, Literal.readFixed o.blamed text = .ok v ∧
          t.ty? o.site.id = some (.fixed (o.fixedPrecision table stated v)) ∧
          ∀ minus, o.sign = some minus →
            t.ty? minus.id = some (.fixed (o.fixedPrecision table stated v))) ∧
        ∀ text stated, o.value = .float text stated →
          t.ty? o.site.id = some (.float (o.floatPrecision table stated)) ∧
          ∀ minus, o.sign = some minus →
            t.ty? minus.id = some (.float (o.floatPrecision table stated)) := by
  refine ⟨?_, fun o ho => ?_⟩
  · refine Program.occurrences_eq_literals table _ fun e he => ?_
    exact Errand.passed_of_typed ((ofProgram_eq_ok_iff.mp h).1 e he)
  obtain ⟨k, hk, hsite, hminus⟩ := Occurrence.get?_of_mem_occurrences h hids ho
  unfold ty?
  constructor
  · intro text stated hvalue
    rw [hvalue] at hk hminus
    obtain ⟨v, hv, hk⟩ := bind_eq_ok.mp hk
    cases hk
    rw [Occurrence.ty_fixed hvalue] at hsite hminus
    refine ⟨v, hv, ?_, fun minus hm => ?_⟩
    · rw [hsite]
      rfl
    · rw [hminus minus hm rfl]
      rfl
  · intro text stated hvalue
    rw [hvalue] at hk hminus
    obtain ⟨v, -, hk⟩ := bind_eq_ok.mp hk
    cases hk
    rw [Occurrence.ty_float hvalue] at hsite hminus
    refine ⟨?_, fun minus hm => ?_⟩
    · rw [hsite]
      rfl
    · rw [hminus minus hm rfl]
      rfl

/-- In the sample unit, the bounds -3, 2 and 12 of the loop take three, two and four bits, the first
both for the sign and the number, though the task they stand in has a `LENGTH` of 20. The 6 in the
condition of the loop has this length. -/
theorem literal_precision_by_position_sample : Sample.tree.program.exprIds.Nodup ∧
    ∃ t, ofTree Sample.table Sample.tree = .ok t ∧ t.ty? ⟨2⟩ = some (.fixed 3) ∧
      t.ty? ⟨3⟩ = some (.fixed 3) ∧ t.ty? ⟨8⟩ = some (.fixed 2) ∧ t.ty? ⟨9⟩ = some (.fixed 4) ∧
      t.ty? ⟨11⟩ = some (.fixed 20) := by
  have hids : Sample.tree.program.exprIds.Nodup := by decide +kernel
  obtain ⟨t, ht⟩ : ∃ t, ofTree Sample.table Sample.tree = .ok t :=
    exists_eq_ok_of_toBool (by decide +kernel)
  obtain ⟨-, hall⟩ := literal_precision_by_position Sample.table Sample.tree t ht hids
  have hclause (o : Occurrence) (text : String) (v : Int) (g : Precision)
      (hvalue : o.value = .fixed text none)
      (h : o ∈ Sample.tree.program.occurrences Sample.table ∧
        Literal.readFixed o.blamed text = .ok v ∧ o.fixedPrecision Sample.table none v = g) :
      t.ty? o.site.id = some (.fixed g) ∧
        ∀ minus, o.sign = some minus → t.ty? minus.id = some (.fixed g) := by
    obtain ⟨ho, hv, rfl⟩ := h
    obtain ⟨w, hw, hprecision⟩ := (hall o ho).1 text none hvalue
    cases hv.symm.trans hw
    exact hprecision
  obtain ⟨hnumber, hsign⟩ := hclause ⟨⟨3⟩, .clause .first, some ⟨⟨3⟩, .unknown, "-3"⟩,
    ⟨⟨2⟩, .unknown, "3"⟩, .fixed "3" none⟩ "3" 3 3 rfl (by decide +kernel)
  obtain ⟨hstep, -⟩ := hclause ⟨⟨3⟩, .clause .step, none, ⟨⟨8⟩, .unknown, "2"⟩, .fixed "2" none⟩
    "2" 2 2 rfl (by decide +kernel)
  obtain ⟨hlast, -⟩ := hclause ⟨⟨3⟩, .clause .last, none, ⟨⟨9⟩, .unknown, "12"⟩, .fixed "12" none⟩
    "12" 12 4 rfl (by decide +kernel)
  obtain ⟨hcondition, -⟩ := hclause ⟨⟨3⟩, .clause .condition, none, ⟨⟨11⟩, .unknown, "6"⟩,
    .fixed "6" none⟩ "6" 6 20 rfl (by decide +kernel)
  exact ⟨hids, t, ht, hnumber, hsign _ rfl, hstep, hlast, hcondition⟩

end TypingTable

end Pearl
