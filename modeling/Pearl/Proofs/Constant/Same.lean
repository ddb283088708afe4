import Pearl.Literal.Denotation
import Pearl.Proofs.InTurn
import Pearl.Proofs.Number.AtLeastZero

/-! # Constants of the same value

Sameness ignores the ordinal of a bit string and the precision of a float. It is symmetric and
transitive, but not reflexive: a time whose seconds are a not-a-number is not the same as itself.
-/

namespace Pearl

namespace Constant

@[simp] theorem numbered_same (n : Nat) (c d : Constant) : (c.numbered n).same d = c.same d := by
  cases c <;> cases d <;> rfl

@[simp] theorem same_numbered (n : Nat) (c d : Constant) : c.same (d.numbered n) = c.same d := by
  cases d <;> cases c <;> rfl

@[simp] theorem isBits_numbered (n : Nat) (c : Constant) : (c.numbered n).isBits = c.isBits := by
  cases c <;> rfl

theorem ordinal?_numbered_succ (n : Nat) {c : Constant} (h : c.isBits = true) :
    (c.numbered (n + 1)).ordinal? = some (n + 1) := by
  cases c with
  | bits pattern m => simp [numbered, ordinal?]
  | _ => contradiction

def isFloat : Constant → Bool
  | .float .. => true
  | _ => false

/-- Constants of the same value have the same type, unless they are floats. -/
theorem ty_eq_of_same {c d : Constant} (h : c.same d = true) (hd : d.isFloat = false) :
    c.ty = d.ty := by
  cases d with
  | float v g => contradiction
  | fixed w g => cases c <;> simp_all [same, ty]
  | bits q n => cases c <;> simp_all [same, ty]
  | char t => cases c <;> simp_all [same, ty]
  | duration h' m s => cases c <;> simp_all [same, ty]
  | clock h' m s => cases c <;> simp_all [same, ty]

/-- A constant of the same value as a float is that float at some precision. -/
theorem eq_float_of_same {c : Constant} {v : Binary64} {g : Precision}
    (h : c.same (.float v g) = true) : ∃ g', c = .float v g' := by
  cases c with
  | float w g' =>
    have hw : w = v := by simpa [same] using h
    exact ⟨g', by rw [hw]⟩
  | _ => simp [same] at h

theorem same_symm {c d : Constant} (h : c.same d = true) : d.same c = true := by
  cases c with
  | fixed | float | bits | char => cases d <;> simp_all [same]
  | duration =>
    cases d with
    | duration => exact beq_symm h
    | _ => cases h
  | clock =>
    cases d with
    | clock => exact beq_symm h
    | _ => cases h

theorem same_trans {c d e : Constant} (hcd : c.same d = true) (hde : d.same e = true) :
    c.same e = true := by
  cases d with
  | fixed | float | bits | char => cases c <;> cases e <;> simp_all [same]
  | duration =>
    cases c with
    | duration =>
      cases e with
      | duration => exact beq_trans hcd hde
      | _ => cases hde
    | _ => cases hcd
  | clock =>
    cases c with
    | clock =>
      cases e with
      | clock => exact beq_trans hcd hde
      | _ => cases hde
    | _ => cases hcd

/-- Whole hours and minutes and seconds that are not below zero add up to a number. -/
theorem isNaN_seconds (hours minutes : Nat) {s : Binary64} (hf : s.isFinite = true)
    (hz : s.isBelowZero = false) : (seconds hours minutes s).isNaN = false := by
  have hour : AtLeastZero (hours.toUInt64.toFloat * 3600.0).toModel.unpack :=
    .unpack_pack (.mul_finite _ (.unpack_pack (.ofNat _ _)) _ _ _)
  have minute : AtLeastZero (minutes.toUInt64.toFloat * 60.0).toModel.unpack :=
    .unpack_pack (.mul_finite _ (.unpack_pack (.ofNat _ _)) _ _ _)
  have total : AtLeastZero (seconds hours minutes s).toModel.unpack :=
    .unpack_pack (.add _ (.unpack_pack (.add _ hour minute)) (s.atLeastZero_toFloat hf hz))
  exact total.isNaN_eq_false

end Constant

end Pearl
