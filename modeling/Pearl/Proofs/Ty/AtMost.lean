import Mathlib.Order.Lattice
import Mathlib.Order.MinMax
import Pearl.Operator.Rule
import Pearl.Proofs.Alike

/-! # Types of one shape, and the rules of the operators

Of two types of the same shape, one may have smaller precisions throughout. No rule looks at a
precision to decide whether operands are legal, and larger precisions of the operands never give a
smaller one of the result. Only the length of a concatenation may reach its limit.
-/

namespace Pearl

/-- The same shape, with precisions that are at most those of the second type. -/
inductive Ty.AtMost : Ty → Ty → Prop
  | fixed {g h : Precision} (le : g ≤ h) : AtMost (.fixed g) (.fixed h)
  | float {g h : Precision} (le : g ≤ h) : AtMost (.float g) (.float h)
  | bit {l m : Precision} (le : l ≤ m) : AtMost (.bit l) (.bit m)
  | char {l m : Precision} (le : l ≤ m) : AtMost (.char l) (.char m)
  | duration : AtMost .duration .duration
  | clock : AtMost .clock .clock
  | array {s t : Ty} (element : AtMost s t) : AtMost (.array s) (.array t)
  | task : AtMost .task .task
  | reference {s t : Ty} (target : AtMost s t) : AtMost (.reference s) (.reference t)

/-- The same but for precisions, which are at most those of the second. -/
structure Typing.AtMost (r s : Typing) : Prop where
  ty : r.ty.AtMost s.ty
  constant : r.constant = s.constant
  var : r.var = s.var

namespace Ty.AtMost

protected theorem refl (t : Ty) : t.AtMost t := by
  induction t with
  | fixed g => exact .fixed le_rfl
  | float g => exact .float le_rfl
  | bit l => exact .bit le_rfl
  | char l => exact .char le_rfl
  | duration => exact .duration
  | clock => exact .clock
  | array t ih => exact .array ih
  | task => exact .task
  | reference t ih => exact .reference ih

theorem scalar {s t : Ty} (h : s.AtMost t) : s.scalar.AtMost t.scalar := by
  induction h with
  | array _ ih => exact ih
  | fixed le => exact .fixed le
  | float le => exact .float le
  | bit le => exact .bit le
  | char le => exact .char le
  | duration => exact .duration
  | clock => exact .clock
  | task => exact .task
  | reference h => exact .reference h

end Ty.AtMost

/-! ## Rules -/

/-- The violation that depends on precisions. -/
abbrev Violation.Overflow (v : Violation) : Prop := v = .lengthOverflow

/-- The outcomes of a rule go together. -/
abbrev RuleAlike : Except Violation Ty → Except Violation Ty → Prop :=
  Alike Violation.Overflow Ty.AtMost

theorem Monadic.result_alike (op : Monadic) {s t : Ty} (h : s.AtMost t) :
    RuleAlike (op.result s) (op.result t) := by
  cases op with
  | plus | minus | abs =>
    cases h with
    | fixed le => exact .ok (.fixed le)
    | float le => exact .ok (.float le)
    | duration => exact .ok .duration
    | _ => exact .error _
  | sign =>
    cases h with
    | fixed | float | duration => exact .ok (.refl _)
    | _ => exact .error _
  | not =>
    cases h with
    | bit le => exact .ok (.bit le)
    | _ => exact .error _
  | toFixed =>
    cases h with
    | bit le => exact .ok (.fixed (Nat.sub_le_sub_right le 1))
    | _ => exact .error _
  | toFloat =>
    cases h with
    | fixed le => exact .ok (.float le)
    | _ => exact .error _
  | toBit =>
    cases h with
    | fixed le => exact .ok (.bit le)
    | _ => exact .error _
  | toChar => exact .error _
  | entier | round =>
    cases h with
    | float le => exact .ok (.fixed le)
    | _ => exact .error _
  | sqrt | sin | cos | exp | ln | tan | atan | tanh =>
    cases h with
    | float le => exact .ok (.float le)
    | _ => exact .error _

namespace Dyadic

variable {s s' t t' : Ty} (hs : s.AtMost s') (ht : t.AtMost t')
include hs ht

theorem numeric?_atMost : Option.Rel Ty.AtMost (numeric? s t) (numeric? s' t') := by
  cases hs with
  | fixed hs =>
    cases ht with
    | fixed ht => exact .some (.fixed (max_le_max hs ht))
    | float ht => exact .some (.float (max_le_max hs ht))
    | _ => exact .none
  | float hs =>
    cases ht with
    | fixed ht | float ht => exact .some (.float (max_le_max hs ht))
    | _ => exact .none
  | _ => exact .none

/-- A rule for numbers and some other types, of which no precision matters. -/
theorem numericOr_alike {other other' : Except Violation Ty} (hother : other = other') :
    RuleAlike (match numeric? s t with
        | some r => .ok r
        | none => other)
      (match numeric? s' t' with
        | some r => .ok r
        | none => other') := by
  have hnumeric := numeric?_atMost hs ht
  generalize numeric? s t = r, numeric? s' t' = r' at hnumeric
  cases hnumeric with
  | none => exact .of_eq Ty.AtMost.refl hother
  | some h => exact .ok h

theorem sum_alike : RuleAlike (sum s t) (sum s' t') := by
  refine numericOr_alike hs ht ?_
  cases hs <;> cases ht <;> rfl

theorem difference_alike : RuleAlike (difference s t) (difference s' t') := by
  refine numericOr_alike hs ht ?_
  cases hs <;> cases ht <;> rfl

theorem product_alike : RuleAlike (product s t) (product s' t') := by
  refine numericOr_alike hs ht ?_
  cases hs <;> cases ht <;> rfl

theorem quotient_alike {ratio ratio' : Precision} (hratio : ratio ≤ ratio') :
    RuleAlike (quotient ratio s t) (quotient ratio' s' t') := by
  cases hs with
  | fixed hs | float hs =>
    cases ht with
    | fixed ht | float ht => exact .ok (.float (max_le_max hs ht))
    | _ => exact .error _
  | duration =>
    cases ht with
    | duration => exact .ok (.float hratio)
    | fixed | float => exact .ok .duration
    | _ => exact .error _
  | _ => exact .error _

theorem wholeQuotient_alike : RuleAlike (wholeQuotient s t) (wholeQuotient s' t') := by
  cases hs with
  | fixed hs =>
    cases ht with
    | fixed ht => exact .ok (.fixed (max_le_max hs ht))
    | _ => exact .error _
  | float hs =>
    cases ht with
    | float ht => exact .ok (.float (max_le_max hs ht))
    | _ => exact .error _
  | _ => exact .error _

theorem fitted_alike : RuleAlike (fitted s t) (fitted s' t') := by
  cases hs with
  | fixed hs =>
    cases ht with
    | fixed ht => exact .ok (.fixed ht)
    | _ => exact .error _
  | float hs =>
    cases ht with
    | float ht => exact .ok (.float ht)
    | _ => exact .error _
  | _ => exact .error _

theorem power_alike : RuleAlike (power s t) (power s' t') := by
  have hfitted := fitted_alike hs ht
  cases hs with
  | float hs =>
    cases ht with
    | fixed ht => exact .ok (.float hs)
    | _ => exact hfitted
  | _ => exact hfitted

/-- Comparisons have one result whatever the precisions. -/
theorem ordering_alike : RuleAlike (ordering s t) (ordering s' t') := by
  refine .of_eq Ty.AtMost.refl ?_
  cases hs <;> cases ht <;> rfl

theorem equality_alike : RuleAlike (equality s t) (equality s' t') := by
  refine .of_eq Ty.AtMost.refl ?_
  cases hs <;> cases ht <;> rfl

theorem bitwise_alike : RuleAlike (bitwise s t) (bitwise s' t') := by
  cases hs with
  | bit hs =>
    cases ht with
    | bit ht => exact .ok (.bit (max_le_max hs ht))
    | _ => exact .error _
  | _ => exact .error _

omit hs ht in
/-- A length that is within the limit bounds a smaller one, and one that is not is given up. -/
theorem length_alike {n m : Nat} (h : n ≤ m) :
    Alike Violation.Overflow (· ≤ ·) (length n) (length m) := by
  unfold length
  by_cases hm : m < precisionLimit
  · rw [if_pos hm, if_pos (h.trans_lt hm)]
    exact .ok h
  · rw [if_neg hm]
    exact .lost _ rfl

theorem concatenation_alike : RuleAlike (concatenation s t) (concatenation s' t') := by
  cases hs with
  | bit hs =>
    cases ht with
    | bit ht => exact (length_alike (Nat.add_le_add hs ht)).map fun _ _ => .bit
    | _ => exact .error _
  | char hs =>
    cases ht with
    | char ht => exact (length_alike (Nat.add_le_add hs ht)).map fun _ _ => .char
    | _ => exact .error _
  | _ => exact .error _

theorem shifted_alike : RuleAlike (shifted s t) (shifted s' t') := by
  cases hs with
  | bit hs =>
    cases ht with
    | fixed ht => exact .ok (.bit hs)
    | _ => exact .error _
  | _ => exact .error _

theorem result_alike (op : Dyadic) {ratio ratio' : Precision} (hratio : ratio ≤ ratio') :
    RuleAlike (op.result ratio s t) (op.result ratio' s' t') := by
  cases op with
  | add => exact sum_alike hs ht
  | sub => exact difference_alike hs ht
  | mul => exact product_alike hs ht
  | div => exact quotient_alike hs ht hratio
  | intDiv => exact wholeQuotient_alike hs ht
  | rem | fit => exact fitted_alike hs ht
  | pow => exact power_alike hs ht
  | eq | ne => exact equality_alike hs ht
  | lt | le | gt | ge => exact ordering_alike hs ht
  | and | or | exor => exact bitwise_alike hs ht
  | cat => exact concatenation_alike hs ht
  | shift | cshift => exact shifted_alike hs ht

end Dyadic

end Pearl
