import Mathlib
import Pearl.Number.Binary64

/-! # Floating-point values that are not below zero

Sums of such values, and their products with a positive number, may overflow to infinity, but they
are never a not-a-number. Equality is symmetric and transitive, and a value that is no not-a-number
equals itself. All of this is read off the logical model of `Float`, where an operation unpacks its
operands and packs the rounded result.
-/

namespace Pearl

open Float.Model Float.Model.UnpackedFloat

/-- Neither below zero nor a not-a-number. Negative zero is not below zero. -/
inductive AtLeastZero : UnpackedFloat → Prop where
  | infinity : AtLeastZero (.infinity .positive)
  | zero (sign : Sign) : AtLeastZero (.zero sign)
  | finite (m : Nat) (e : Int) (h : 0 < m) : AtLeastZero (.finite .positive m e h)

namespace AtLeastZero

theorem isNaN_eq_false {u : UnpackedFloat} (h : AtLeastZero u) : u.isNaN = false := by
  cases h <;> rfl

/-! ## Rounding -/

theorem roundWithAccuracy (spec : Format) (m : Nat) (e : Int) (accuracy : Accuracy) :
    AtLeastZero (roundWithAccuracy spec .positive m e accuracy) := by
  unfold Float.Model.UnpackedFloat.roundWithAccuracy
  dsimp only
  split
  · exact .zero _
  · exact .finite _ _ _

theorem normalize (spec : Format) {m : Int} (e : Int) (hm : 0 ≤ m) :
    AtLeastZero (normalize spec m e .positive) := by
  unfold Float.Model.UnpackedFloat.normalize
  split
  · rename_i h
    have hlt : m < 0 := Int.compare_eq_lt.mp h
    omega
  · exact .zero _
  · exact .roundWithAccuracy _ _ _ _

/-! ## Operations -/

theorem add (spec : Format) {u v : UnpackedFloat} (hu : AtLeastZero u) (hv : AtLeastZero v) :
    AtLeastZero (add spec u v) := by
  cases hu with
  | infinity => cases hv <;> exact .infinity
  | zero sign =>
    cases hv with
    | infinity => exact .infinity
    | zero sign' =>
      simp only [Float.Model.UnpackedFloat.add]
      split <;> exact .zero _
    | finite m e h => exact .finite m e h
  | finite m e h =>
    cases hv with
    | infinity => exact .infinity
    | zero sign => exact .finite m e h
    | finite m' e' h' =>
      refine .normalize spec _ ?_
      simp only [Sign.apply]
      exact Int.add_nonneg (Int.natCast_nonneg _) (Int.natCast_nonneg _)

/-- A zero stays zero and an infinity stays infinite when multiplied by a positive number. -/
theorem mul_finite (spec : Format) {u : UnpackedFloat} (hu : AtLeastZero u) (m : Nat) (e : Int)
    (h : 0 < m) : AtLeastZero (mul spec u (.finite .positive m e h)) := by
  cases hu with
  | infinity => exact .infinity
  | zero sign => exact .zero _
  | finite m' e' h' => exact .roundWithAccuracy _ _ _ _

theorem ofNat (spec : Format) (n : Nat) : AtLeastZero (ofNat spec n) :=
  .normalize spec 0 (Int.natCast_nonneg n)

/-! ## Packing

Packing may overflow a number to infinity, but it keeps the sign. -/

theorem unpackSign_eq_zero {bits : BitVec 64} (h : bits.toNat < 2 ^ 63) :
    @unpackSign .binary64 bits = 0#1 := by
  apply BitVec.eq_of_toNat_eq
  change (bits.toNat >>> 63) % 2 = 0
  rw [Nat.shiftRight_eq_div_pow, Nat.div_eq_of_lt h]

theorem toNat_packComponents_lt (exponent : BitVec 11) (mantissa : BitVec 52) :
    (packComponents .binary64 .positive exponent mantissa).toNat < 2 ^ 63 := by
  have hs : (Sign.toBitVec .positive).toNat = 0 := rfl
  unfold packComponents
  rw [BitVec.toNat_append, BitVec.toNat_append, hs, Nat.zero_shiftLeft, Nat.zero_or,
    ← BitVec.toNat_append]
  exact (exponent ++ mantissa).isLt

/-- Components with a positive sign are a not-a-number only if the exponent is full and the mantissa
is not zero. -/
theorem unpack_packComponents (exponent : BitVec 11) (mantissa : BitVec 52)
    (h : exponent = -1#11 → mantissa = 0#52) :
    AtLeastZero (unpack .binary64 (packComponents .binary64 .positive exponent mantissa)) := by
  have hs : Sign.ofBitVec 0#1 = .positive := rfl
  simp only [UnpackedFloat.unpack, unpackMantissa_packComponents, unpackExponent_packComponents,
    unpackSign_eq_zero (toNat_packComponents_lt exponent mantissa), hs]
  split
  · rename_i he
    rw [if_pos (h he)]
    exact .infinity
  · split
    · split
      · exact .zero _
      · exact .finite _ _ _
    · exact .finite _ _ _

theorem unpack_pack {u : UnpackedFloat} (hu : AtLeastZero u) :
    AtLeastZero (unpack .binary64 (pack .binary64 u)) := by
  cases hu with
  | infinity => exact unpack_packComponents _ _ fun _ => rfl
  | zero sign => cases sign <;> exact .zero _
  | finite m e h =>
    simp only [UnpackedFloat.pack]
    split
    · exact unpack_packComponents _ _ fun _ => rfl
    · rename_i hb
      split
      · refine unpack_packComponents _ _ fun he => ?_
        have hn := congrArg BitVec.toNat he
        simp at hn
        omega
      · exact unpack_packComponents _ _ fun he => absurd he (by decide)

end AtLeastZero

/-! ## Values kept as bits -/

namespace Binary64

variable (x : Binary64)

theorem toNat_unpackExponent :
    (@unpackExponent .binary64 x.bits.toBitVec).toNat = x.exponentField := by
  change (x.bits.toNat >>> 52) % 2 ^ 11 = x.bits.toNat / 2 ^ 52 % 2 ^ 11
  rw [Nat.shiftRight_eq_div_pow]

theorem toNat_unpackMantissa :
    (@unpackMantissa .binary64 x.bits.toBitVec).toNat = x.fraction := by
  change (x.bits.toNat >>> 0) % 2 ^ 52 = x.bits.toNat % 2 ^ 52
  rw [Nat.shiftRight_zero]

theorem toNat_lt_of_not_isMinus (h : x.isMinus = false) : x.bits.toNat < 2 ^ 63 := by
  simpa [isMinus] using h

/-- A finite value that is not below zero stays so in arithmetic. With a minus sign it is zero. -/
theorem atLeastZero_toFloat (hf : x.isFinite = true) (hz : x.isBelowZero = false) :
    AtLeastZero x.toFloat.toModel.unpack := by
  apply AtLeastZero.unpack_pack
  have he : @unpackExponent .binary64 x.bits.toBitVec ≠ -1#11 := by
    intro h
    have hn := congrArg BitVec.toNat h
    rw [x.toNat_unpackExponent] at hn
    simp [isFinite, hn] at hf
  simp only [UnpackedFloat.unpack]
  rw [if_neg he]
  cases hm : x.isMinus with
  | false =>
    have hs : Sign.ofBitVec (@unpackSign .binary64 x.bits.toBitVec) = .positive := by
      rw [AtLeastZero.unpackSign_eq_zero (x.toNat_lt_of_not_isMinus hm)]
      rfl
    rw [hs]
    split
    · split
      · exact .zero _
      · exact .finite _ _ _
    · exact .finite _ _ _
  | true =>
    have hn : x.isNaN = false := by
      have h2047 : x.exponentField ≠ 2047 := by simpa [isFinite] using hf
      simp [isNaN, h2047]
    have h0 : x.isZero = true := by simpa [isBelowZero, hm, hn] using hz
    simp only [isZero, Bool.and_eq_true, beq_iff_eq] at h0
    have hexp : @unpackExponent .binary64 x.bits.toBitVec = 0#11 :=
      BitVec.eq_of_toNat_eq (x.toNat_unpackExponent.trans h0.1)
    have hman : @unpackMantissa .binary64 x.bits.toBitVec = 0#52 :=
      BitVec.eq_of_toNat_eq (x.toNat_unpackMantissa.trans h0.2)
    rw [if_pos hexp, dif_pos hman]
    exact .zero _

end Binary64

/-! ## Equality -/

/-- The value with a zero taken as positive. -/
def unsignedZero : UnpackedFloat → UnpackedFloat
  | .zero _ => .zero .positive
  | u => u

theorem isNaN_unsignedZero (u : UnpackedFloat) : (unsignedZero u).isNaN = u.isNaN := by
  cases u <;> rfl

/-- Values compare as equal if they are numbers that differ in the sign of a zero at most. -/
theorem compare_eq_iff {u v : UnpackedFloat} :
    u.compare v = some .eq ↔ u.isNaN = false ∧ unsignedZero u = unsignedZero v := by
  have hsign (s s' : Sign) : compare s s' = .eq ↔ s = s' := by
    cases s <;> cases s' <;> constructor <;> intro h <;> cases h <;> rfl
  cases u with
  | notANumber => simp [UnpackedFloat.compare, UnpackedFloat.isNaN]
  | infinity sign =>
    cases v <;> cases sign <;>
      simp [UnpackedFloat.compare, unsignedZero, UnpackedFloat.isNaN, hsign]
  | zero sign =>
    cases v with
    | infinity s | finite s =>
      cases s <;> simp [UnpackedFloat.compare, unsignedZero]
    | notANumber | zero => simp [UnpackedFloat.compare, unsignedZero, UnpackedFloat.isNaN]
  | finite sign m e hm =>
    cases v with
    | infinity s | zero s =>
      cases sign <;> cases s <;> simp [UnpackedFloat.compare, unsignedZero]
    | notANumber => simp [UnpackedFloat.compare, unsignedZero]
    | finite s m' e' hm' =>
      cases sign <;> cases s <;>
        simp [UnpackedFloat.compare, unsignedZero, UnpackedFloat.isNaN, Ordering.then_eq_eq,
          and_comm]

theorem beq_iff {x y : Float} : (x == y) = true ↔
    x.toModel.unpack.isNaN = false ∧
      unsignedZero x.toModel.unpack = unsignedZero y.toModel.unpack := by
  rw [← compare_eq_iff]
  change (x.toModel.unpack.compare y.toModel.unpack == some .eq) = true ↔ _
  exact beq_iff_eq

theorem beq_symm {x y : Float} (h : (x == y) = true) : (y == x) = true := by
  obtain ⟨hx, hxy⟩ := beq_iff.mp h
  refine beq_iff.mpr ⟨?_, hxy.symm⟩
  rw [← isNaN_unsignedZero, ← hxy, isNaN_unsignedZero]
  exact hx

theorem beq_trans {x y z : Float} (hxy : (x == y) = true) (hyz : (y == z) = true) :
    (x == z) = true := by
  obtain ⟨hx, hxy⟩ := beq_iff.mp hxy
  obtain ⟨-, hyz⟩ := beq_iff.mp hyz
  exact beq_iff.mpr ⟨hx, hxy.trans hyz⟩

/-- A floating-point value that is no not-a-number equals itself. -/
theorem beq_self_of_isNaN_eq_false {x : Float} (h : x.isNaN = false) : (x == x) = true :=
  beq_iff.mpr ⟨h, rfl⟩

end Pearl
