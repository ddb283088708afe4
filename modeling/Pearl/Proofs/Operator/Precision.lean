import Mathlib.Order.Lattice
import Mathlib.Order.MinMax
import Pearl.Operator.Rule
import Pearl.Proofs.InTurn

/-! # Precisions that the rules give

No rule but that of concatenation gives a precision beyond those of its operands, one bit and the
precision of duration ratios. A concatenation is as long as both of its operands, and runs out of
length exactly if that reaches the limit.
-/

namespace Pearl

namespace Ty

/-- The precision or length inside a type, that of the elements for an array and that of the target
for a reference; zero for types that have none. -/
def inner : Ty → Nat
  | .fixed g | .float g => g
  | .bit l | .char l => l
  | .duration | .clock | .task => 0
  | .array t | .reference t => t.inner

/-- Strings whose lengths add up to more than a precision can hold. -/
inductive TooLong : Ty → Ty → Prop
  | bit {l m : Precision} (h : precisionLimit ≤ l + m) : TooLong (.bit l) (.bit m)
  | char {l m : Precision} (h : precisionLimit ≤ l + m) : TooLong (.char l) (.char m)

theorem TooLong.le_inner {s t : Ty} (h : s.TooLong t) : precisionLimit ≤ s.inner + t.inner := by
  cases h with
  | bit h | char h => exact h

end Ty

namespace Dyadic

variable {ratio : Precision} {op : Dyadic} {s t r : Ty}

/-! ## Concatenation -/

theorem length_eq_ok_iff {n : Nat} {l : Precision} :
    length n = .ok l ↔ n < precisionLimit ∧ l = n := by
  unfold length
  split <;> simp_all [eq_comm]

theorem length_eq_error_iff {n : Nat} : length n = .error .lengthOverflow ↔ precisionLimit ≤ n := by
  unfold length
  split <;> simp <;> omega

theorem concatenation_bit {l m : Precision} (h : l + m < precisionLimit) :
    concatenation (.bit l) (.bit m) = .ok (.bit (l + m)) :=
  map_eq_ok.mpr ⟨_, length_eq_ok_iff.mpr ⟨h, rfl⟩, rfl⟩

theorem concatenation_char {l m : Precision} (h : l + m < precisionLimit) :
    concatenation (.char l) (.char m) = .ok (.char (l + m)) :=
  map_eq_ok.mpr ⟨_, length_eq_ok_iff.mpr ⟨h, rfl⟩, rfl⟩

/-- Only strings of one kind can be concatenated. -/
theorem concatenation_cases (h : concatenation s t = .ok r) :
    (∃ l m, s = .bit l ∧ t = .bit m ∧ l + m < precisionLimit ∧ r = .bit (l + m)) ∨
      ∃ l m, s = .char l ∧ t = .char m ∧ l + m < precisionLimit ∧ r = .char (l + m) := by
  unfold concatenation at h
  split at h
  · obtain ⟨n, hn, rfl⟩ := map_eq_ok.mp h
    obtain ⟨hlt, rfl⟩ := length_eq_ok_iff.mp hn
    exact .inl ⟨_, _, rfl, rfl, hlt, rfl⟩
  · obtain ⟨n, hn, rfl⟩ := map_eq_ok.mp h
    obtain ⟨hlt, rfl⟩ := length_eq_ok_iff.mp hn
    exact .inr ⟨_, _, rfl, rfl, hlt, rfl⟩
  · cases h

theorem concatenation_eq_error_iff : concatenation s t = .error .lengthOverflow ↔ s.TooLong t := by
  constructor
  · intro h
    unfold concatenation at h
    split at h
    · exact .bit (length_eq_error_iff.mp (map_eq_error.mp h))
    · exact .char (length_eq_error_iff.mp (map_eq_error.mp h))
    · cases h
  · rintro (h | h)
    all_goals exact map_eq_error.mpr (length_eq_error_iff.mpr h)

/-- Of the operators, only concatenation can run out of length. -/
theorem tooLong_of_result (h : op.result ratio s t = .error .lengthOverflow) :
    op = .cat ∧ s.TooLong t := by
  cases op with
  | cat => exact ⟨rfl, concatenation_eq_error_iff.mp h⟩
  | add | sub | mul | pow | eq | ne =>
    simp only [result, sum, difference, product, power, fitted, equality, ordering] at h
    split at h
    · cases h
    · split at h <;> cases h
  | div | intDiv | lt | le | gt | ge | and | or | exor | shift | cshift | rem | fit =>
    simp only [result, quotient, wholeQuotient, ordering, bitwise, shifted, fitted] at h
    split at h <;> cases h

/-! ## Bounds -/

theorem inner_of_numeric? (h : numeric? s t = some r) : r.inner ≤ s.inner + t.inner := by
  unfold numeric? at h
  split at h <;> cases h
  all_goals exact max_le (Nat.le_add_right ..) (Nat.le_add_left ..)

theorem inner_of_quotient (h : quotient ratio s t = .ok r) :
    r.inner ≤ max ratio (s.inner + t.inner) := by
  unfold quotient at h
  split at h <;> cases h
  all_goals simp [Ty.inner]

theorem inner_of_fitted (h : fitted s t = .ok r) : r.inner = t.inner := by
  unfold fitted at h
  split at h <;> cases h
  all_goals rfl

theorem inner_of_ordering (h : ordering s t = .ok r) : r.inner = 1 := by
  unfold ordering at h
  split at h <;> cases h
  all_goals rfl

theorem inner_of_bitwise (h : bitwise s t = .ok r) : r.inner = max s.inner t.inner := by
  unfold bitwise at h
  split at h <;> cases h
  rfl

/-- A result is no more precise than both operands together, but has at least one bit or the
precision of a ratio. -/
theorem inner_of_result (h : op.result ratio s t = .ok r) :
    r.inner ≤ max (max 1 ratio) (s.inner + t.inner) := by
  cases op with
  | add | sub | mul =>
    simp only [result, sum, difference, product] at h
    split at h
    · next hnumeric =>
      cases h
      exact le_max_of_le_right (inner_of_numeric? hnumeric)
    · split at h <;> cases h
      all_goals exact Nat.zero_le _
  | div => exact (inner_of_quotient h).trans (max_le_max_right _ (le_max_right ..))
  | intDiv =>
    simp only [result, wholeQuotient] at h
    split at h <;> cases h
    all_goals exact le_max_of_le_right (max_le (Nat.le_add_right ..) (Nat.le_add_left ..))
  | rem | fit =>
    rw [inner_of_fitted h]
    exact le_max_of_le_right (Nat.le_add_left ..)
  | pow =>
    simp only [result, power] at h
    split at h
    · cases h
      exact le_max_of_le_right (Nat.le_add_right ..)
    · rw [inner_of_fitted h]
      exact le_max_of_le_right (Nat.le_add_left ..)
  | lt | le | gt | ge =>
    rw [inner_of_ordering h]
    exact le_max_of_le_left (le_max_left ..)
  | eq | ne =>
    simp only [result, equality] at h
    split at h
    · cases h
      exact le_max_of_le_left (le_max_left ..)
    · rw [inner_of_ordering h]
      exact le_max_of_le_left (le_max_left ..)
  | and | or | exor =>
    rw [inner_of_bitwise h]
    exact le_max_of_le_right (max_le (Nat.le_add_right ..) (Nat.le_add_left ..))
  | cat =>
    rcases concatenation_cases h with ⟨l, m, rfl, rfl, -, rfl⟩ | ⟨l, m, rfl, rfl, -, rfl⟩
    · exact le_max_right ..
    · exact le_max_right ..
  | shift | cshift =>
    simp only [result, shifted] at h
    split at h <;> cases h
    exact le_max_of_le_right (Nat.le_add_right ..)

end Dyadic

theorem Monadic.result_ne_overflow (op : Monadic) (s : Ty) :
    op.result s ≠ .error .lengthOverflow := by
  intro h
  cases op with
  | toChar => cases h
  | _ =>
    simp only [result] at h
    split at h <;> cases h

/-- An operator with one operand keeps its precision, takes a bit off or has one bit of its own. -/
theorem Monadic.inner_of_result {op : Monadic} {s t : Ty} (h : op.result s = .ok t) :
    t.inner ≤ max 1 s.inner := by
  cases op with
  | toChar => cases h
  | _ =>
    simp only [result] at h
    split at h <;> cases h
    all_goals simp [Ty.inner]

end Pearl
