import Mathlib.Algebra.BigOperators.Group.List.Basic
import Mathlib.Algebra.Group.WithOne.Basic
import Mathlib.Order.Lattice
import Mathlib.Order.MinMax
import Pearl.Proofs.Operator.Precision

/-! # Chains of an operator

A chain of operands with one of the operators `+`, `*`, `AND`, `OR`, `EXOR` and `CAT` between them
has the same type however it is bracketed and ordered, or is refused with the same violation. The
rules of these operators are commutative, and they are associative in that one way of bracketing
three operands has a type if the other has. So the types, and one more outcome for what has none,
are a commutative semigroup.
-/

namespace Pearl

namespace Dyadic

/-- Operators of which a chain may be bracketed and ordered at will. -/
def isChaining : Dyadic → Bool
  | .add | .mul | .and | .or | .exor | .cat => true
  | _ => false

/-- The violation of operands that a chain does not take. -/
def refusal : Dyadic → Violation
  | .add | .mul => .illegalExpression
  | _ => .typeMismatch

/-! ## Rules -/

section Rules

variable {s t u m r : Ty}

theorem sum_comm (s t : Ty) : sum s t = sum t s := by
  cases s <;> cases t <;> simp [sum, numeric?, max_comm]

/-- Numbers stay numbers, and of times at most one is a clock time. -/
theorem sum_assoc (h : sum s t = .ok m) (h' : sum m u = .ok r) :
    ∃ n, sum t u = .ok n ∧ sum s n = .ok r := by
  cases s with
  | fixed | float | duration | clock =>
    cases t <;> cases h
    all_goals
      cases u <;> cases h'
      all_goals exact ⟨_, rfl, by simp [sum, numeric?, max_assoc]⟩
  | bit | char | array | task | reference => cases t <;> cases h

theorem product_comm (s t : Ty) : product s t = product t s := by
  cases s <;> cases t <;> simp [product, numeric?, max_comm]

/-- At most one factor is a duration. -/
theorem product_assoc (h : product s t = .ok m) (h' : product m u = .ok r) :
    ∃ n, product t u = .ok n ∧ product s n = .ok r := by
  cases s with
  | fixed | float | duration =>
    cases t <;> cases h
    all_goals
      cases u <;> cases h'
      all_goals exact ⟨_, rfl, by simp [product, numeric?, max_assoc]⟩
  | bit | char | clock | array | task | reference => cases t <;> cases h

theorem bitwise_comm (s t : Ty) : bitwise s t = bitwise t s := by
  cases s <;> cases t <;> simp [bitwise, max_comm]

theorem bitwise_assoc (h : bitwise s t = .ok m) (h' : bitwise m u = .ok r) :
    ∃ n, bitwise t u = .ok n ∧ bitwise s n = .ok r := by
  cases s with
  | bit =>
    cases t <;> cases h
    cases u <;> cases h'
    exact ⟨_, rfl, by simp [bitwise, max_assoc]⟩
  | fixed | float | char | duration | clock | array | task | reference => cases t <;> cases h

theorem violation_of_length {n : Nat} {v : Violation} (h : length n = .error v) :
    v = .lengthOverflow := by
  unfold length at h
  split at h <;> cases h
  rfl

theorem concatenation_comm (s t : Ty) : concatenation s t = concatenation t s := by
  cases s <;> cases t <;> simp [concatenation, Nat.add_comm]

/-- If all three fit together, so do any two of them. -/
theorem concatenation_assoc (h : concatenation s t = .ok m) (h' : concatenation m u = .ok r) :
    ∃ n, concatenation t u = .ok n ∧ concatenation s n = .ok r := by
  rcases concatenation_cases h with ⟨l, k, rfl, rfl, -, rfl⟩ | ⟨l, k, rfl, rfl, -, rfl⟩
  · rcases concatenation_cases h' with ⟨_, j, ⟨⟩, rfl, hlt, rfl⟩ | ⟨_, _, ⟨⟩, -⟩
    rw [Nat.add_assoc] at hlt ⊢
    have hrest : k + j < precisionLimit := Nat.lt_of_le_of_lt (Nat.le_add_left (k + j) l) hlt
    exact ⟨.bit (k + j), concatenation_bit hrest, concatenation_bit hlt⟩
  · rcases concatenation_cases h' with ⟨_, _, ⟨⟩, -⟩ | ⟨_, j, ⟨⟩, rfl, hlt, rfl⟩
    rw [Nat.add_assoc] at hlt ⊢
    have hrest : k + j < precisionLimit := Nat.lt_of_le_of_lt (Nat.le_add_left (k + j) l) hlt
    exact ⟨.char (k + j), concatenation_char hrest, concatenation_char hlt⟩

end Rules

section Chaining

variable {ratio : Precision} {op : Dyadic} (hop : op.isChaining = true) {s t u m r : Ty}
include hop

theorem result_comm (ratio : Precision) (s t : Ty) : op.result ratio s t = op.result ratio t s := by
  cases op with
  | add => exact sum_comm s t
  | mul => exact product_comm s t
  | and | or | exor => exact bitwise_comm s t
  | cat => exact concatenation_comm s t
  | _ => cases hop

theorem result_assoc (h : op.result ratio s t = .ok m) (h' : op.result ratio m u = .ok r) :
    ∃ n, op.result ratio t u = .ok n ∧ op.result ratio s n = .ok r := by
  cases op with
  | add => exact sum_assoc h h'
  | mul => exact product_assoc h h'
  | and | or | exor => exact bitwise_assoc h h'
  | cat => exact concatenation_assoc h h'
  | _ => cases hop

/-- A chain refuses operands in one way, unless a length is too large. -/
theorem violation_of_result {v : Violation} (h : op.result ratio s t = .error v) :
    v = op.refusal ∨ op = .cat ∧ v = .lengthOverflow := by
  cases op with
  | add | mul =>
    simp only [result, sum, product] at h
    split at h
    · cases h
    · split at h <;> cases h
      exact .inl rfl
  | and | or | exor =>
    simp only [result, bitwise] at h
    split at h <;> cases h
    exact .inl rfl
  | cat =>
    simp only [result, concatenation] at h
    split at h
    · exact .inr ⟨rfl, violation_of_length (map_eq_error.mp h)⟩
    · exact .inr ⟨rfl, violation_of_length (map_eq_error.mp h)⟩
    · cases h
      exact .inl rfl
  | _ => cases hop

end Chaining

/-! ## The semigroup of types -/

theorem toOption_eq_some_iff {ε α : Type} {x : Except ε α} {a : α} :
    x.toOption = some a ↔ x = .ok a := by
  cases x <;> simp [Except.toOption]

section Semigroup

variable (ratio : Precision) {op : Dyadic}

/-- The rule of an operator for operands that may have no type. -/
def combine (op : Dyadic) (x y : Option Ty) : Option Ty :=
  x.bind fun s => y.bind fun t => (op.result ratio s t).toOption

variable {ratio} in
theorem combine_eq_some_iff {x y : Option Ty} {r : Ty} : combine ratio op x y = some r ↔
    ∃ s t, x = some s ∧ y = some t ∧ op.result ratio s t = .ok r := by
  simp only [combine, Option.bind_eq_some_iff, toOption_eq_some_iff]
  constructor
  · rintro ⟨s, hs, t, ht, hr⟩
    exact ⟨s, t, hs, ht, hr⟩
  · rintro ⟨s, t, hs, ht, hr⟩
    exact ⟨s, hs, t, ht, hr⟩

variable (hop : op.isChaining = true)
include hop

theorem combine_comm (x y : Option Ty) : combine ratio op x y = combine ratio op y x := by
  cases x <;> cases y <;> simp [combine, result_comm hop]

/-- If one way of bracketing has a type, so has the other. -/
theorem combine_assoc_of_some {x y z : Option Ty} {r : Ty}
    (h : combine ratio op (combine ratio op x y) z = some r) :
    combine ratio op x (combine ratio op y z) = some r := by
  obtain ⟨m, u, hm, rfl, hr⟩ := combine_eq_some_iff.mp h
  obtain ⟨s, t, rfl, rfl, hst⟩ := combine_eq_some_iff.mp hm
  obtain ⟨n, hn, hsn⟩ := result_assoc hop hst hr
  exact combine_eq_some_iff.mpr ⟨s, n, rfl, combine_eq_some_iff.mpr ⟨t, u, rfl, rfl, hn⟩, hsn⟩

/-- Either way of bracketing is the other one, read backwards. -/
theorem combine_assoc (x y z : Option Ty) :
    combine ratio op (combine ratio op x y) z = combine ratio op x (combine ratio op y z) := by
  apply Option.ext
  intro r
  constructor
  · exact combine_assoc_of_some ratio hop
  · intro h
    rw [combine_comm ratio hop, combine_comm ratio hop x y]
    apply combine_assoc_of_some ratio hop
    rwa [combine_comm ratio hop, combine_comm ratio hop z y]

/-- Types, and none, under the rule of a chain. -/
@[reducible] def chaining : CommSemigroup (Option Ty) where
  mul := combine ratio op
  mul_assoc := combine_assoc ratio hop
  mul_comm := combine_comm ratio hop

end Semigroup

end Dyadic

/-! ## Bracketings -/

/-- A chain of operands with brackets. -/
inductive Bracketing where
  | operand (ty : Ty)
  | join (lhs rhs : Bracketing)
deriving DecidableEq, Repr

namespace Bracketing

/-- The types of the operands from left to right. -/
def operands : Bracketing → List Ty
  | .operand ty => [ty]
  | .join b b' => b.operands ++ b'.operands

/-- The type of a chain with the operator between its operands, from the inside out. -/
def result (ratio : Precision) (op : Dyadic) : Bracketing → Except Violation Ty
  | .operand ty => .ok ty
  | .join b b' => do
    let s ← b.result ratio op
    let t ← b'.result ratio op
    op.result ratio s t

open Pearl.Dyadic

variable {ratio : Precision} {op : Dyadic}

theorem toOption_result_join (b b' : Bracketing) : ((join b b').result ratio op).toOption =
    combine ratio op (b.result ratio op).toOption (b'.result ratio op).toOption := by
  rw [result]
  cases b.result ratio op with
  | error v => rfl
  | ok s => cases b'.result ratio op <;> rfl

section Chain

variable (hop : op.isChaining = true)
include hop

/-- The type of a chain is the product of the types of its operands, in whatever order. -/
theorem prod_operands (b : Bracketing) :
    letI := chaining ratio hop
    (b.operands.map fun ty => WithOne.coe (some ty)).prod =
      WithOne.coe (b.result ratio op).toOption := by
  let := chaining ratio hop
  induction b with
  | operand ty => simp [operands, result, Except.toOption]
  | join b b' ih ih' =>
    rw [operands, List.map_append, List.prod_append, ih, ih', toOption_result_join]
    rfl

theorem toOption_result_of_perm {b b' : Bracketing} (h : b.operands.Perm b'.operands) :
    (b.result ratio op).toOption = (b'.result ratio op).toOption := by
  let := chaining ratio hop
  apply WithOne.coe_injective
  rw [← prod_operands hop b, ← prod_operands hop b']
  exact (h.map _).prod_eq

theorem violation_of_result {b : Bracketing} {v : Violation} (h : b.result ratio op = .error v) :
    v = op.refusal ∨ op = .cat ∧ v = .lengthOverflow := by
  induction b with
  | operand ty => cases h
  | join b b' ih ih' =>
    rcases bind_eq_error h with h | ⟨s, -, h⟩
    · exact ih h
    · rcases bind_eq_error h with h | ⟨t, -, h⟩
      · exact ih' h
      · exact Dyadic.violation_of_result hop h

/-- Chains of the same operands have the same types. -/
theorem result_eq_ok_iff_of_perm (ratio : Precision) {b b' : Bracketing}
    (h : b.operands.Perm b'.operands) (ty : Ty) :
    b.result ratio op = .ok ty ↔ b'.result ratio op = .ok ty := by
  rw [← toOption_eq_some_iff, ← toOption_eq_some_iff, toOption_result_of_perm hop h]

end Chain

/-! ## Lengths -/

/-- No concatenation of the chain reaches the limit of lengths. -/
def Fits (ratio : Precision) (b : Bracketing) : Prop := b.result ratio .cat ≠ .error .lengthOverflow

/-- The lengths of all operands together. -/
def length : Bracketing → Nat
  | .operand ty => ty.inner
  | .join b b' => b.length + b'.length

/-- A chain of strings is as long as its operands together. -/
theorem inner_of_result {b : Bracketing} {ty : Ty} (h : b.result ratio .cat = .ok ty) :
    ty.inner = b.length := by
  induction b generalizing ty with
  | operand s =>
    cases h
    rfl
  | join b b' ih ih' =>
    obtain ⟨s, hs, h⟩ := bind_eq_ok.mp h
    obtain ⟨t, ht, h⟩ := bind_eq_ok.mp h
    rw [length, ← ih hs, ← ih' ht]
    rcases concatenation_cases h with ⟨l, m, rfl, rfl, -, rfl⟩ | ⟨l, m, rfl, rfl, -, rfl⟩
    · rfl
    · rfl

/-- A chain fits if all of its operands do together. -/
theorem fits_of_length_lt {b : Bracketing} (h : b.length < precisionLimit) : b.Fits ratio := by
  intro hoverflow
  induction b with
  | operand ty => cases hoverflow
  | join b b' ih ih' =>
    rw [length] at h
    rcases bind_eq_error hoverflow with hs | ⟨s, hs, hoverflow⟩
    · exact ih (by omega) hs
    · rcases bind_eq_error hoverflow with ht | ⟨t, ht, hoverflow⟩
      · exact ih' (by omega) ht
      · rw [← inner_of_result hs, ← inner_of_result ht] at h
        exact Nat.not_le_of_lt h (concatenation_eq_error_iff.mp hoverflow).le_inner

/-- Two chains with one of the operators `+`, `*`, `AND`, `OR`, `EXOR` and `CAT` between the same
operands, in any two orders and with any brackets, have the same type or are refused with the same
violation, as long as the lengths of concatenations stay below their limit. -/
theorem result_rearranged (ratio : Precision) (op : Dyadic) (hop : op.isChaining = true)
    (b b' : Bracketing) (hperm : b.operands.Perm b'.operands)
    (hfits : op = .cat → b.Fits ratio ∧ b'.Fits ratio) :
    b.result ratio op = b'.result ratio op := by
  have hok := result_eq_ok_iff_of_perm hop ratio hperm
  have hrefused : ∀ a : Bracketing, (op = .cat → a.Fits ratio) → ∀ v, a.result ratio op = .error v →
      v = op.refusal := by
    intro a ha v hv
    refine (violation_of_result hop hv).resolve_right ?_
    rintro ⟨rfl, rfl⟩
    exact ha rfl hv
  cases h : b.result ratio op with
  | ok ty => exact ((hok ty).mp h).symm
  | error v =>
    cases h' : b'.result ratio op with
    | ok ty => cases h.symm.trans ((hok ty).mpr h')
    | error v' =>
      rw [hrefused b (fun hcat => (hfits hcat).1) v h,
        hrefused b' (fun hcat => (hfits hcat).2) v' h']

/-- Three bit strings that are together as long as a string can be. -/
theorem result_rearranged_longest :
    let x : Bracketing := .operand (.bit 0x80000000)
    let y : Bracketing := .operand (.bit 0x7FFFFFFE)
    let z : Bracketing := .operand (.bit 1)
    let b := join (join x y) z
    let b' := join z (join y x)
    b.operands.Perm b'.operands ∧ b.Fits 53 ∧ b'.Fits 53 ∧
      b.result 53 .cat = .ok (.bit 0xFFFFFFFF) ∧ b'.result 53 .cat = .ok (.bit 0xFFFFFFFF) := by
  intro x y z b b'
  have hperm : b.operands.Perm b'.operands := by decide
  have hfits : b.Fits 53 := fits_of_length_lt (by decide)
  have hfits' : b'.Fits 53 := fits_of_length_lt (by decide)
  have hresult : b.result 53 .cat = .ok (.bit 0xFFFFFFFF) := by decide
  have hsame := result_rearranged 53 .cat rfl b b' hperm fun _ => ⟨hfits, hfits'⟩
  exact ⟨hperm, hfits, hfits', hresult, hsame.symm.trans hresult⟩

/-- If a length reaches the limit, what is found first depends on the brackets. -/
example :
    let half : Bracketing := .operand (.bit 0x80000000)
    let c : Bracketing := .operand (.char 1)
    (join (join half half) c).result 53 .cat = .error .lengthOverflow ∧
      (join half (join half c)).result 53 .cat = .error .typeMismatch := by
  decide

end Bracketing

end Pearl
