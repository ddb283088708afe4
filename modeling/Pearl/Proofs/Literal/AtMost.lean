import Pearl.Proofs.Literal.Negation
import Pearl.Proofs.Ty.AtMost

/-! # Literals at larger precisions

Whether a literal can be read does not depend on the precisions in effect, and neither does its
value. A number that states no precision of its own takes the one in effect, so that a larger one
gives a larger one.
-/

namespace Pearl

structure Precisions.AtMost (g g' : Precisions) : Prop where
  fixed : g.fixed ≤ g'.fixed
  float : g.float ≤ g'.float

/-- The same value, at a precision that is at most that of the second constant. -/
inductive Constant.AtMost : Constant → Constant → Prop
  | fixed (v : Int) {g h : Precision} (le : g ≤ h) : AtMost (.fixed v g) (.fixed v h)
  | float (v : Binary64) {g h : Precision} (le : g ≤ h) : AtMost (.float v g) (.float v h)
  | same (k : Constant) : AtMost k k

namespace Constant.AtMost

variable {k k' : Constant}

theorem opposite (h : k.AtMost k') : k.opposite.AtMost k'.opposite := by
  cases h with
  | fixed v le => exact .fixed (-v) le
  | float v le => exact .float v.neg le
  | same => exact .same _

theorem fits (h : k.AtMost k') : k.Fits ↔ k'.Fits := by
  cases h <;> rfl

end Constant.AtMost

/-- Outcomes of reading that go together: a literal that cannot be read has one fault. -/
abbrev ReadAlike {α β : Type} : (α → β → Prop) → Except Diagnostic α → Except Diagnostic β → Prop :=
  Alike fun _ => False

namespace Literal

variable {g g' : Precisions}

theorem getD_le (stated : Option Precision) {n m : Precision} (h : n ≤ m) :
    stated.getD n ≤ stated.getD m := by
  cases stated with
  | none => exact h
  | some _ => exact le_rfl

theorem denote_alike (h : g.AtMost g') (site : LiteralSite) (value : Literal) :
    ReadAlike Constant.AtMost (value.denote site g) (value.denote site g') := by
  cases value with
  | fixed text stated =>
    refine Alike.bind (.of_eq (fun _ => rfl) rfl) ?_
    rintro v _ rfl
    exact .ok (.fixed v (getD_le stated h.fixed))
  | float text stated =>
    refine Alike.bind (.of_eq (fun _ => rfl) rfl) ?_
    rintro v _ rfl
    exact .ok (.float v (getD_le stated h.float))
  | bits | string | duration | clock => exact .of_eq .same rfl

theorem denoteNegated_alike (h : g.AtMost g') (site : LiteralSite) (value : Literal) :
    ReadAlike (Option.Rel Constant.AtMost) (value.denoteNegated site g)
      (value.denoteNegated site g') := by
  cases hnum : value.isNumeric with
  | false =>
    rw [denoteNegated_of_not_isNumeric hnum, denoteNegated_of_not_isNumeric hnum]
    exact .ok .none
  | true =>
    rw [denoteNegated_of_isNumeric hnum, denoteNegated_of_isNumeric hnum]
    refine (denote_alike h site value).bind fun k k' hk => ?_
    by_cases hfits : k.opposite.Fits
    · rw [if_pos hfits, if_pos (hk.opposite.fits.mp hfits)]
      exact .ok (.some hk.opposite)
    · rw [if_neg hfits, if_neg (mt hk.opposite.fits.mpr hfits)]
      exact .error _

end Literal

end Pearl
