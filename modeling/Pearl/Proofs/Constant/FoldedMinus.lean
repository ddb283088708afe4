import Pearl.Proofs.Constant.Fold
import Pearl.Proofs.Text.Numeral

/-! # A minus sign before a numeral

There are two ways to a negative number: to read a numeral and negate it, which is what a minus sign
before a literal does, and to read a numeral that has the sign in it. `denoteNegated_digits` and
`denote_minus_digits` say what each of them comes to. They differ at the lowest word alone, whose
numeral without the sign does not fit.
-/

namespace Pearl

open Walk

namespace Literal

variable {text : String} (h : Text.IsDigits text.toList) (site : LiteralSite) (g : Precisions)
  (suffix : Option Precision)
include h

theorem readFixed_digits : readFixed site text =
    if Text.digitsValue text.toList < Nat.pow 2 63 then .ok (Text.digitsValue text.toList : Int)
    else .error site.outOfRange := by
  unfold readFixed
  rw [h.trimBlanks_eq, h.word?_eq]
  split_ifs <;> rfl

theorem readFixed_minus_digits : readFixed site ("-" ++ text) =
    if Text.digitsValue text.toList ≤ Nat.pow 2 63 then .ok (-(Text.digitsValue text.toList : Int))
    else .error site.outOfRange := by
  have htext : ("-" ++ text).toList = '-' :: text.toList := String.toList_append
  unfold readFixed
  rw [htext, h.trimBlanks_minus, h.word?_minus]
  split_ifs <;> rfl

/-- A numeral that has a minus sign in it denotes every word that is not above zero. -/
theorem denote_minus_digits : (Literal.fixed ("-" ++ text) suffix).denote site g =
    if Text.digitsValue text.toList ≤ Nat.pow 2 63
    then .ok (.fixed (-(Text.digitsValue text.toList : Int)) (suffix.getD g.fixed))
    else .error site.outOfRange := by
  rw [denote, readFixed_minus_digits h]
  split_ifs <;> rfl

/-- A minus sign before a numeral gives the opposite of every word that is not below zero. -/
theorem denoteNegated_digits : (Literal.fixed text suffix).denoteNegated site g =
    if Text.digitsValue text.toList < Nat.pow 2 63
    then .ok (some (.fixed (-(Text.digitsValue text.toList : Int)) (suffix.getD g.fixed)))
    else .error site.outOfRange := by
  rw [denoteNegated_of_isNumeric rfl, denote, readFixed_digits h]
  split_ifs with hlt
  · have hfits : Text.FitsWord (-(Text.digitsValue text.toList : Int)) :=
      Text.fitsWord_neg_natCast.mpr (Nat.le_of_lt hlt)
    exact if_pos hfits
  · rfl

/-- The two ways come to the same below the lowest word and above it. -/
theorem folded_and_signed :
    let v := Text.digitsValue text.toList
    let k : Constant := .fixed (-v) (suffix.getD g.fixed)
    let folded := (Literal.fixed text suffix).denoteNegated site g
    let signed := (Literal.fixed ("-" ++ text) suffix).denote site g
    (v < Nat.pow 2 63 ∧ folded = .ok (some k) ∧ signed = .ok k) ∨
      (v = Nat.pow 2 63 ∧ folded = .error site.outOfRange ∧ signed = .ok k) ∨
      (Nat.pow 2 63 < v ∧ folded = .error site.outOfRange ∧ signed = .error site.outOfRange) := by
  intro v k folded signed
  have hfolded : folded = if v < Nat.pow 2 63 then .ok (some k) else .error site.outOfRange :=
    denoteNegated_digits h site g suffix
  have hsigned : signed = if v ≤ Nat.pow 2 63 then .ok k else .error site.outOfRange :=
    denote_minus_digits h site g suffix
  rw [hfolded, hsigned]
  rcases Nat.lt_trichotomy v (Nat.pow 2 63) with hlt | heq | hgt
  · exact .inl ⟨hlt, if_pos hlt, if_pos (Nat.le_of_lt hlt)⟩
  · exact .inr (.inl ⟨heq, if_neg (Nat.not_lt_of_ge heq.ge), if_pos heq.le⟩)
  · exact .inr (.inr ⟨hgt, if_neg (Nat.not_lt_of_gt hgt), if_neg (Nat.not_le_of_gt hgt)⟩)

/-- So collecting the numeral with its sign pools the negative number. -/
theorem collect_minus_digits (minus inner : ExprSite) (c : Context) (p : Pool) :
    (Pool.collect (.monadic minus .minus fun _ => .literal inner (.fixed text suffix))).runFrom
      ⟨c, p⟩ =
      if Text.digitsValue text.toList < Nat.pow 2 63 then
        (.ok (), ⟨c, (p.add (.fixed (-(Text.digitsValue text.toList : Int))
          (suffix.getD c.precisions.fixed))).2⟩)
      else (.error (.reported ⟨.numberOutOfRange, inner.location, minus.text⟩), ⟨c, p⟩) := by
  rw [Pool.collect_minus_literal rfl]
  simp only [Pool.collectNegated, runFrom_bind, runFrom_context, runFrom_ofExcept,
    denoteNegated_digits h]
  split_ifs <;> rfl

theorem folded_eq_ok_iff {k : Constant} :
    (Literal.fixed text suffix).denoteNegated site g = .ok (some k) ↔
      (Literal.fixed ("-" ++ text) suffix).denote site g = .ok k ∧
        Text.digitsValue text.toList ≠ Nat.pow 2 63 := by
  rcases folded_and_signed h site g suffix with ⟨hlt, hf, hs⟩ | ⟨heq, hf, hs⟩ | ⟨hgt, hf, hs⟩
  · simp [hf, hs, Nat.ne_of_lt hlt]
  · simp [hf, heq]
  · simp [hf, hs]

theorem folded_eq_outOfRange_iff :
    (Literal.fixed text suffix).denoteNegated site g = .error site.outOfRange ↔
      (Literal.fixed ("-" ++ text) suffix).denote site g = .error site.outOfRange ∨
        Text.digitsValue text.toList = Nat.pow 2 63 := by
  rcases folded_and_signed h site g suffix with ⟨hlt, hf, hs⟩ | ⟨heq, hf, hs⟩ | ⟨hgt, hf, hs⟩
  · simp [hf, hs, Nat.ne_of_lt hlt]
  · simp [hf, heq]
  · simp [hf, hs]

/-- The numeral with the sign in it denotes every negative word. -/
theorem fitsWord_iff_signed : Text.FitsWord (-(Text.digitsValue text.toList : Int)) ↔
    (Literal.fixed ("-" ++ text) suffix).denote site g =
      .ok (.fixed (-(Text.digitsValue text.toList : Int)) (suffix.getD g.fixed)) := by
  rw [Text.fitsWord_neg_natCast, denote_minus_digits h]
  split
  · next hle => exact iff_of_true hle rfl
  · next hle => exact iff_of_false hle (by rintro ⟨⟩)

end Literal

/-- Let `v` be the value of a numeral of any length. A minus sign before the numeral gives the
constant that the numeral has with the sign in it, and is out of range if that is, unless `v` is the
opposite of the lowest word: then only the numeral with the sign in it has a constant. So the
constant `-v` is pooled where `v` itself fits a word, and else the sign and the numeral are out of
range. -/
theorem minus_folds_except_lowest (text : String) (h : Text.IsDigits text.toList)
    (suffix : Option Precision) (g : Precisions) (site : LiteralSite) :
    let v := Text.digitsValue text.toList
    let folded := (Literal.fixed text suffix).denoteNegated site g
    let signed := (Literal.fixed ("-" ++ text) suffix).denote site g
    (∀ k, folded = .ok (some k) ↔ signed = .ok k ∧ v ≠ Nat.pow 2 63) ∧
      (folded = .error site.outOfRange ↔ signed = .error site.outOfRange ∨ v = Nat.pow 2 63) ∧
      (Text.FitsWord (-v) ↔ signed = .ok (.fixed (-v) (suffix.getD g.fixed))) ∧
      ∀ minus inner c p,
        let k : Constant := .fixed (-v) (suffix.getD c.precisions.fixed)
        let run := (Pool.collect (.monadic minus .minus fun _ =>
          .literal inner (.fixed text suffix))).runFrom ⟨c, p⟩
        (Text.FitsWord (-v) ∧ v ≠ Nat.pow 2 63 →
          run = (.ok (), ⟨c, (p.add k).2⟩) ∧ (p.add k).2.contains k = true) ∧
        (¬Text.FitsWord (-v) ∨ v = Nat.pow 2 63 →
          run = (.error (.reported ⟨.numberOutOfRange, inner.location, minus.text⟩), ⟨c, p⟩)) := by
  intro v folded signed
  refine ⟨fun k => Literal.folded_eq_ok_iff h site g suffix,
    Literal.folded_eq_outOfRange_iff h site g suffix,
    Literal.fitsWord_iff_signed h site g suffix, ?_⟩
  intro minus inner c p k run
  have hfits : Text.FitsWord (-v) ↔ v ≤ Nat.pow 2 63 := Text.fitsWord_neg_natCast
  have hrun : run = if v < Nat.pow 2 63 then _ else _ :=
    Literal.collect_minus_digits h suffix minus inner c p
  rw [hfits]
  constructor
  · rintro ⟨hle, hne⟩
    have hcontains : (p.add k).2.position? k = some (p.add k).1 :=
      Pool.position?_add_self p (by simp [Constant.same, k])
    refine ⟨hrun.trans (if_pos (Nat.lt_of_le_of_ne hle hne)), ?_⟩
    rw [Pool.contains, hcontains]
    rfl
  · intro hout
    exact hrun.trans (if_neg (by omega))

/-- The highest word with leading zeros, and its opposite. -/
theorem minus_folds_except_lowest_highest :
    Text.IsDigits "0009223372036854775807".toList ∧
      (Literal.fixed "0009223372036854775807" none).denoteNegated
        ⟨.unknown, "-0009223372036854775807"⟩
        ⟨31, 24⟩ = .ok (some (.fixed (-9223372036854775807) 31)) := by
  have h : Text.IsDigits "0009223372036854775807".toList := by decide
  obtain ⟨hok, -⟩ := minus_folds_except_lowest "0009223372036854775807" h none ⟨31, 24⟩
    ⟨.unknown, "-0009223372036854775807"⟩
  exact ⟨h, (hok _).mpr (by decide)⟩

/-- The lowest word is denoted by the numeral with the sign in it, but not by a minus sign before
the numeral, which is not pooled either. -/
theorem lowest_not_folded :
    (Literal.fixed "-9223372036854775808" none).denote ⟨.unknown, "-9223372036854775808"⟩ ⟨31, 24⟩ =
        .ok (.fixed (-9223372036854775808) 31) ∧
      (Literal.fixed "9223372036854775808" none).denoteNegated ⟨.unknown, "-9223372036854775808"⟩
        ⟨31, 24⟩ = .error ⟨.numberOutOfRange, .unknown, "-9223372036854775808"⟩ := by
  decide

end Pearl
