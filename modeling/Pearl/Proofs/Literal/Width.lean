import Mathlib.Algebra.Group.Nat.Defs
import Mathlib.Algebra.Order.Group.Unbundled.Int
import Mathlib.Order.Bounds.Basic
import Pearl.Literal.Denotation

/-! # Widths of integers

The width of a number is that of its magnitude, and one more below zero for the sign. A magnitude is
as wide as the least power of two above it asks for, and a single digit at least. The two's
complement of a negative number takes as many bits, but one less at the opposite of a power of two:
such a number is the lowest of its width.
-/

namespace Pearl

/-- The binary digits of a magnitude, at least one. -/
def binaryDigits (n : Nat) : Nat := if n = 0 then 1 else n.log2 + 1

theorem fixedWidth_eq (v : Int) :
    fixedWidth v = binaryDigits v.natAbs + if v < 0 then 1 else 0 := by
  unfold fixedWidth binaryDigits
  simp only [Int.natAbs_eq_zero]
  split <;> rfl

variable {m n : Nat}

theorem one_le_binaryDigits (n : Nat) : 1 ≤ binaryDigits n := by
  unfold binaryDigits
  split <;> omega

theorem binaryDigits_le_iff {w : Nat} (hw : 1 ≤ w) : binaryDigits n ≤ w ↔ n < 2 ^ w := by
  unfold binaryDigits
  split
  · next h =>
    subst h
    exact iff_of_true hw (Nat.two_pow_pos w)
  · next h => exact Nat.succ_le_iff.trans (Nat.log2_lt h)

theorem binaryDigits_mono (h : m ≤ n) : binaryDigits m ≤ binaryDigits n := by
  rw [binaryDigits_le_iff (one_le_binaryDigits n)]
  exact h.trans_lt ((binaryDigits_le_iff (one_le_binaryDigits n)).mp le_rfl)

theorem isLeast_binaryDigits (n : Nat) : IsLeast {w | 1 ≤ w ∧ n < 2 ^ w} (binaryDigits n) := by
  constructor
  · exact ⟨one_le_binaryDigits n, (binaryDigits_le_iff (one_le_binaryDigits n)).mp le_rfl⟩
  · rintro w ⟨hw, hn⟩
    exact (binaryDigits_le_iff hw).mpr hn

/-- The first digit of a magnitude other than zero counts. -/
theorem pow_le_of_ne_zero (h : n ≠ 0) : 2 ^ (binaryDigits n - 1) ≤ n := by
  rw [binaryDigits, if_neg h]
  exact Nat.log2_self_le h

/-- A power of two stands at the bound of a width, other magnitudes need the next. -/
theorem isLeast_signed (h : n ≠ 0) : IsLeast {k | 1 ≤ k ∧ n ≤ 2 ^ (k - 1)}
    (if n = 2 ^ (binaryDigits n - 1) then binaryDigits n else binaryDigits n + 1) := by
  have hpos := one_le_binaryDigits n
  have hlow := pow_le_of_ne_zero h
  have hhigh := (isLeast_binaryDigits n).1.2
  split
  · next hpow =>
    refine ⟨⟨hpos, hpow.le⟩, ?_⟩
    rintro k ⟨hk, hn⟩
    have hle := (Nat.pow_le_pow_iff_right Nat.one_lt_two).mp (hlow.trans hn)
    omega
  · next hpow =>
    refine ⟨⟨by omega, hhigh.le⟩, ?_⟩
    rintro k ⟨hk, hn⟩
    have hlt := (Nat.pow_lt_pow_iff_right Nat.one_lt_two).mp ((hlow.lt_of_ne' hpow).trans_le hn)
    omega

theorem eq_pow_iff (h : n ≠ 0) : n = 2 ^ (binaryDigits n - 1) ↔ ∃ j, n = 2 ^ j := by
  constructor
  · exact fun hn => ⟨_, hn⟩
  · rintro ⟨j, rfl⟩
    rw [binaryDigits, if_neg h, Nat.log2_two_pow, Nat.add_sub_cancel]

/-! ## Integers -/

variable {v : Int}

/-- The width of a word is that of its digits and a sign. -/
theorem fixedWidth_le (h : Text.FitsWord v) : fixedWidth v ≤ 65 := by
  have hdigits : binaryDigits v.natAbs ≤ 64 := by
    rw [binaryDigits_le_iff (by decide)]
    obtain ⟨hlow, hhigh⟩ := h
    have hpow : Nat.pow 2 63 = 9223372036854775808 := rfl
    omega
  rw [fixedWidth_eq]
  refine Nat.add_le_add hdigits (show _ ≤ 1 from ?_)
  split <;> decide

theorem isLeast_magnitude (v : Int) :
    IsLeast {w : Nat | 1 ≤ w ∧ |v| < 2 ^ w} (binaryDigits v.natAbs) := by
  have hset : {w : Nat | 1 ≤ w ∧ |v| < 2 ^ w} = {w | 1 ≤ w ∧ v.natAbs < 2 ^ w} := by
    ext w
    rw [Set.mem_ofPred_eq, Set.mem_ofPred_eq, Int.abs_eq_natAbs]
    norm_cast
  rw [hset]
  exact isLeast_binaryDigits v.natAbs

/-- A negative number has a place in a width as soon as the lowest of that width is not above it. -/
theorem isLeast_complement (h : v < 0) : IsLeast {k : Nat | 1 ≤ k ∧ -2 ^ (k - 1) ≤ v}
    (if v.natAbs = 2 ^ (binaryDigits v.natAbs - 1) then binaryDigits v.natAbs
      else binaryDigits v.natAbs + 1) := by
  have hset : {k : Nat | 1 ≤ k ∧ -2 ^ (k - 1) ≤ v} = {k | 1 ≤ k ∧ v.natAbs ≤ 2 ^ (k - 1)} := by
    ext k
    rw [Set.mem_ofPred_eq, Set.mem_ofPred_eq, neg_le, ← abs_of_neg h, Int.abs_eq_natAbs]
    norm_cast
  rw [hset]
  exact isLeast_signed (Int.natAbs_ne_zero.mpr h.ne)

theorem eq_neg_pow_iff (h : v < 0) {j : Nat} : v = -2 ^ j ↔ v.natAbs = 2 ^ j := by
  rw [eq_comm, neg_eq_iff_eq_neg, eq_comm, ← abs_of_neg h, Int.abs_eq_natAbs]
  norm_cast

/-- The width of every integer, the words among them. -/
theorem fixedWidth_exact (v : Int) :
    (0 ≤ v → IsLeast {w : Nat | 1 ≤ w ∧ v < 2 ^ w} (fixedWidth v)) ∧
      (v < 0 → ∃ w k, IsLeast {w : Nat | 1 ≤ w ∧ |v| < 2 ^ w} w ∧ fixedWidth v = w + 1 ∧
        IsLeast {k : Nat | 1 ≤ k ∧ -2 ^ (k - 1) ≤ v} k ∧
        ((∃ j : Nat, v = -2 ^ j) → fixedWidth v = k + 1) ∧
        ((¬∃ j : Nat, v = -2 ^ j) → fixedWidth v = k)) ∧
      (∀ u : Int, (u < 0 ↔ v < 0) → |u| ≤ |v| → fixedWidth u ≤ fixedWidth v) ∧
      fixedWidth (-2 ^ 63) = 65 := by
  refine ⟨?_, ?_, ?_, by decide⟩
  · intro h
    have hleast := isLeast_magnitude v
    rw [abs_of_nonneg h] at hleast
    rwa [fixedWidth_eq, if_neg h.not_gt, Nat.add_zero]
  · intro h
    have hwidth : fixedWidth v = binaryDigits v.natAbs + 1 := by rw [fixedWidth_eq, if_pos h]
    have hpow : (∃ j : Nat, v = -2 ^ j) ↔ v.natAbs = 2 ^ (binaryDigits v.natAbs - 1) := by
      rw [eq_pow_iff (Int.natAbs_ne_zero.mpr h.ne)]
      exact exists_congr fun j => eq_neg_pow_iff h
    refine ⟨_, _, isLeast_magnitude v, hwidth, isLeast_complement h, ?_, ?_⟩
    · intro hv
      rw [if_pos (hpow.mp hv), hwidth]
    · intro hv
      rw [if_neg (mt hpow.mpr hv), hwidth]
  · intro u hsign hle
    have hmono : binaryDigits u.natAbs ≤ binaryDigits v.natAbs := by
      rw [Int.abs_eq_natAbs, Int.abs_eq_natAbs, Int.ofNat_le] at hle
      exact binaryDigits_mono hle
    rw [fixedWidth_eq, fixedWidth_eq]
    simp only [hsign]
    exact Nat.add_le_add_right hmono _

/-- Three bits hold -4 as well as -3. -/
example : fixedWidth (-4) = 4 ∧ fixedWidth (-3) = 3 := by decide

end Pearl
