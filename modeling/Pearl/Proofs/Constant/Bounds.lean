import Pearl.Proofs.Constant.Same
import Pearl.Proofs.Program.Occurrence

/-! # Bounds of constants

Numbers fit their representation, and the parts of a time have a place in it. This holds of the
constants that literals denote, with a sign or without: each reader checks what it reads, and a sign
changes nothing but itself. A constant within bounds is the same as itself, so that a pool that took
it in can find it again.
-/

namespace Pearl

/-! ## Signs of floating-point values -/

namespace Binary64

variable (x : Binary64)

/-- The sign stands right after the bits of the exponent. -/
theorem exponentField_neg : x.neg.exponentField = x.exponentField := by
  have hbits : x.neg.bits.toNat = x.bits.toNat ^^^ 2 ^ 63 := UInt64.toNat_xor ..
  unfold exponentField
  rw [hbits]
  apply Nat.eq_of_testBit_eq
  intro i
  show Nat.testBit ((x.bits.toNat ^^^ 2 ^ 63) / 2 ^ 52 % 2 ^ 11) i =
    Nat.testBit (x.bits.toNat / 2 ^ 52 % 2 ^ 11) i
  rw [Nat.testBit_mod_two_pow, Nat.testBit_mod_two_pow, Nat.testBit_div_two_pow,
    Nat.testBit_div_two_pow, Nat.testBit_xor]
  by_cases hi : i < 11
  · rw [Nat.testBit_two_pow_of_ne (by omega), Bool.xor_false]
  · rw [decide_eq_false hi, Bool.false_and, Bool.false_and]

@[simp] theorem isFinite_neg : x.neg.isFinite = x.isFinite := by
  rw [isFinite, isFinite, exponentField_neg]

end Binary64

/-! ## Bounds -/

namespace Constant

/-- The parts are within the bounds of what they stand for. -/
def InBounds : Constant → Prop
  | .fixed v _ => Text.FitsWord v
  | .float v _ => v.isFinite = true
  | .bits _ _ | .char _ => True
  | .duration h m s => h < Nat.pow 2 63 ∧ m ≤ 59 ∧ s.isFinite = true ∧ s.isBelowZero = false
  | .clock h m s => h < 24 ∧ m ≤ 59 ∧ s.isFinite = true ∧ s.isBelowZero = false

@[simp] theorem inBounds_numbered (n : Nat) (c : Constant) :
    (c.numbered n).InBounds ↔ c.InBounds := by
  cases c <;> rfl

namespace InBounds

variable {c : Constant} (h : c.InBounds)
include h

theorem same_self : c.same c = true := by
  cases c with
  | fixed | float | bits | char => simp [same]
  | duration hours minutes seconds | clock hours minutes seconds =>
    obtain ⟨-, -, hf, hz⟩ := h
    exact beq_self_of_isNaN_eq_false (isNaN_seconds hours minutes hf hz)

theorem opposite (hfits : c.opposite.Fits) : c.opposite.InBounds := by
  cases c with
  | fixed => exact hfits
  | float v g => exact v.isFinite_neg.trans h
  | bits | char | duration | clock => exact h

end InBounds

end Constant

/-! ## Readers -/

namespace Literal

variable {site : LiteralSite} {text : String}

theorem fitsWord_of_readFixed {v : Int} (h : readFixed site text = .ok v) : Text.FitsWord v := by
  unfold readFixed at h
  split at h
  · next hword =>
    cases h
    exact of_decide_eq_true (Option.filter_eq_some_iff.mp hword).2
  · cases h

theorem isFinite_of_readFloat {x : Binary64} (h : readFloat site text = .ok x) :
    x.isFinite = true := by
  unfold readFloat at h
  split at h
  · split at h
    · next hf =>
      cases h
      exact hf
    · cases h
  · cases h

theorem lt_of_readHours {n : Nat} (h : readHours site text = .ok n) : n < Nat.pow 2 63 := by
  obtain ⟨v, hv, h⟩ := bind_eq_ok.mp h
  have hlt := (fitsWord_of_readFixed hv).2
  split at h
  · cases h
    omega
  · cases h

theorem le_of_readMinutes {n : Nat} (h : readMinutes site text = .ok n) : n ≤ 59 := by
  obtain ⟨v, -, h⟩ := bind_eq_ok.mp h
  split at h
  · cases h
    omega
  · cases h

theorem bounds_of_readSeconds {s : Binary64} (h : readSeconds site text = .ok s) :
    s.isFinite = true ∧ s.isBelowZero = false := by
  obtain ⟨x, hx, hs⟩ := bind_eq_ok.mp h
  split at hs
  · cases hs
  · next hz =>
    cases hs
    exact ⟨isFinite_of_readFloat hx, by simpa using hz⟩

/-- What holds of all that is read, and of the value for what is not given, holds of a part. -/
theorem of_readPart {α : Type} {P : α → Prop} {read : String → Except Diagnostic α} {absent a : α}
    {part : Option String} (hread : ∀ text a, read text = .ok a → P a) (habsent : P absent)
    (h : readPart read absent part = .ok a) : P a := by
  cases part with
  | none =>
    cases h
    exact habsent
  | some text => exact hread text a h

/-- What a literal denotes is within bounds. -/
theorem inBounds_of_denote {defaults : Precisions} {value : Literal} {c : Constant}
    (h : value.denote site defaults = .ok c) : c.InBounds := by
  cases value with
  | fixed text g =>
    obtain ⟨v, hv, hc⟩ := bind_eq_ok.mp h
    cases hc
    exact fitsWord_of_readFixed hv
  | float text g =>
    obtain ⟨v, hv, hc⟩ := bind_eq_ok.mp h
    cases hc
    exact isFinite_of_readFloat hv
  | bits digits base =>
    obtain ⟨pattern, -, hc⟩ := bind_eq_ok.mp h
    cases hc
    trivial
  | string content =>
    cases h
    trivial
  | duration hours minutes seconds =>
    obtain ⟨hh, hhours, h⟩ := bind_eq_ok.mp h
    obtain ⟨mm, hminutes, h⟩ := bind_eq_ok.mp h
    obtain ⟨ss, hseconds, h⟩ := bind_eq_ok.mp h
    cases h
    refine ⟨?_, ?_, ?_⟩
    · exact of_readPart (P := (· < Nat.pow 2 63)) (fun _ _ => lt_of_readHours) (by decide) hhours
    · exact of_readPart (P := (· ≤ 59)) (fun _ _ => le_of_readMinutes) (Nat.zero_le 59) hminutes
    · exact of_readPart (P := fun s => s.isFinite = true ∧ s.isBelowZero = false)
        (fun _ _ => bounds_of_readSeconds) (by decide) hseconds
  | clock hours minutes seconds =>
    obtain ⟨hh, -, h⟩ := bind_eq_ok.mp h
    obtain ⟨mm, hminutes, h⟩ := bind_eq_ok.mp h
    obtain ⟨ss, hseconds, h⟩ := bind_eq_ok.mp h
    cases h
    exact ⟨Nat.mod_lt hh (by decide), le_of_readMinutes hminutes, bounds_of_readSeconds hseconds⟩

/-- What it denotes after a minus sign is, too. -/
theorem inBounds_of_denoteNegated {defaults : Precisions} {value : Literal} {c : Constant}
    (h : value.denoteNegated site defaults = .ok (some c)) : c.InBounds := by
  cases hnumeric : value.isNumeric with
  | false =>
    rw [denoteNegated_of_not_isNumeric hnumeric] at h
    cases h
  | true =>
    rw [denoteNegated_of_isNumeric hnumeric] at h
    obtain ⟨k, hk, h⟩ := bind_eq_ok.mp h
    split at h
    · next hfits =>
      cases h
      exact (inBounds_of_denote hk).opposite hfits
    · cases h

end Literal

/-- With its sign, too, a literal has a constant within bounds. -/
theorem Occurrence.inBounds_of_constant {table : SymbolTable} {o : Occurrence} {c : Constant}
    (h : o.constant table = .ok c) : c.InBounds := by
  obtain ⟨k, hk, h⟩ := bind_eq_ok.mp h
  have hbounds := Literal.inBounds_of_denote hk
  split at h
  · split at h
    · next hfits =>
      cases h
      exact hbounds.opposite hfits
    · cases h
  · cases h
    exact hbounds

end Pearl
