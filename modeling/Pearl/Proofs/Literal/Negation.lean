import Pearl.Literal.Denotation
import Pearl.Proofs.InTurn

/-! # Literals and their signs

The constant of a literal does not depend on where it stands, which only matters for the fault of
one that cannot be read. A minus sign before a number gives the opposite constant, if that fits a
word.
-/

namespace Pearl

namespace Constant

/-- The number of the other sign. -/
def opposite : Constant → Constant
  | .fixed v g => .fixed (-v) g
  | .float v g => .float v.neg g
  | c => c

/-- Whether the value of a fixed constant fits a word. -/
def Fits : Constant → Prop
  | .fixed v _ => Text.FitsWord v
  | _ => True

instance (c : Constant) : Decidable c.Fits := by
  cases c <;> unfold Fits <;> infer_instance

end Constant

/-- A test that was passed does not matter any more. -/
theorem ite_error_of_ok {ε α : Type} {p : Prop} [Decidable p] {x : Except ε α} {e e' : ε} {a : α}
    (h : (if p then x else .error e) = .ok a) : (if p then x else .error e') = .ok a := by
  split at h
  · rename_i hp
    rw [if_pos hp]
    exact h
  · cases h

namespace Literal

variable {site : LiteralSite} (site' : LiteralSite) {g : Precisions} {value : Literal}

/-! ## Readers at another site -/

theorem readFixed_of_site {text : String} {v : Int} (h : readFixed site text = .ok v) :
    readFixed site' text = .ok v := by
  unfold readFixed at h ⊢
  split at h
  · exact h
  · cases h

theorem readFloat_of_site {text : String} {v : Binary64} (h : readFloat site text = .ok v) :
    readFloat site' text = .ok v := by
  unfold readFloat at h ⊢
  split at h
  · exact ite_error_of_ok h
  · cases h

theorem readBits_of_site {digits : String} {base : Nat} {bits : List Bool}
    (h : readBits site digits base = .ok bits) : readBits site' digits base = .ok bits := by
  unfold readBits at h ⊢
  split at h
  · rename_i hbase
    rw [if_pos hbase]
    split at h
    · exact h
    · cases h
  · cases h

theorem readHours_of_site {text : String} {n : Nat} (h : readHours site text = .ok n) :
    readHours site' text = .ok n := by
  obtain ⟨v, hv, h⟩ := bind_eq_ok.mp h
  exact bind_eq_ok.mpr ⟨v, readFixed_of_site site' hv, ite_error_of_ok h⟩

theorem readMinutes_of_site {text : String} {n : Nat} (h : readMinutes site text = .ok n) :
    readMinutes site' text = .ok n := by
  obtain ⟨v, hv, h⟩ := bind_eq_ok.mp h
  exact bind_eq_ok.mpr ⟨v, readFixed_of_site site' hv, ite_error_of_ok h⟩

theorem readSeconds_of_site {text : String} {v : Binary64} (h : readSeconds site text = .ok v) :
    readSeconds site' text = .ok v := by
  obtain ⟨s, hs, h⟩ := bind_eq_ok.mp h
  refine bind_eq_ok.mpr ⟨s, readFloat_of_site site' hs, ?_⟩
  split at h
  · cases h
  · rename_i hpos
    rw [if_neg hpos]
    exact h

theorem readPart_of_site {α : Type} {read : LiteralSite → String → Except Diagnostic α}
    {absent a : α} {part : Option String}
    (hread : ∀ {text a}, read site text = .ok a → read site' text = .ok a)
    (h : readPart (read site) absent part = .ok a) : readPart (read site') absent part = .ok a := by
  cases part with
  | none => exact h
  | some text => exact hread h

/-- A literal that can be read has the same constant at any site. -/
theorem denote_of_site {c : Constant} (h : value.denote site g = .ok c) :
    value.denote site' g = .ok c := by
  cases value with
  | fixed text suffix =>
    obtain ⟨v, hv, h⟩ := bind_eq_ok.mp h
    exact bind_eq_ok.mpr ⟨v, readFixed_of_site site' hv, h⟩
  | float text suffix =>
    obtain ⟨v, hv, h⟩ := bind_eq_ok.mp h
    exact bind_eq_ok.mpr ⟨v, readFloat_of_site site' hv, h⟩
  | bits digits base =>
    obtain ⟨bits, hbits, h⟩ := bind_eq_ok.mp h
    exact bind_eq_ok.mpr ⟨bits, readBits_of_site site' hbits, h⟩
  | string content => exact h
  | duration hours minutes seconds =>
    obtain ⟨hh, hhours, h⟩ := bind_eq_ok.mp h
    obtain ⟨mm, hminutes, h⟩ := bind_eq_ok.mp h
    obtain ⟨ss, hseconds, h⟩ := bind_eq_ok.mp h
    refine bind_eq_ok.mpr ⟨hh, readPart_of_site site' (readHours_of_site site') hhours, ?_⟩
    refine bind_eq_ok.mpr ⟨mm, readPart_of_site site' (readMinutes_of_site site') hminutes, ?_⟩
    exact bind_eq_ok.mpr ⟨ss, readPart_of_site site' (readSeconds_of_site site') hseconds, h⟩
  | clock hours minutes seconds =>
    obtain ⟨hh, hhours, h⟩ := bind_eq_ok.mp h
    obtain ⟨mm, hminutes, h⟩ := bind_eq_ok.mp h
    obtain ⟨ss, hseconds, h⟩ := bind_eq_ok.mp h
    refine bind_eq_ok.mpr ⟨hh, readHours_of_site site' hhours, ?_⟩
    refine bind_eq_ok.mpr ⟨mm, readMinutes_of_site site' hminutes, ?_⟩
    exact bind_eq_ok.mpr ⟨ss, readSeconds_of_site site' hseconds, h⟩

/-! ## Signs -/

variable {site'}

/-- A number after a minus sign is negated, if the result fits. -/
theorem denoteNegated_of_isNumeric (h : value.isNumeric = true) :
    value.denoteNegated site g = (value.denote site g).bind fun c =>
      if c.opposite.Fits then .ok (some c.opposite) else .error site.outOfRange := by
  unfold denoteNegated
  rw [if_pos h]
  cases value with
  | fixed text suffix =>
    simp only [denote]
    cases readFixed site text <;> rfl
  | float text suffix =>
    simp only [denote]
    cases readFloat site text <;> rfl
  | bits | string | duration | clock => cases h

theorem denoteNegated_of_not_isNumeric (h : value.isNumeric = false) :
    value.denoteNegated site g = .ok none := by
  unfold denoteNegated
  rw [h]
  rfl

end Literal

end Pearl
