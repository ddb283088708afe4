import Pearl.Literal.Denotation
import Pearl.Proofs.InTurn

/-! # Faults of literals

A literal that cannot be read is blamed on its site. Either a number in it is out of range, or a
part of a time is out of its bounds.
-/

namespace Pearl.Literal

variable {site : LiteralSite} {α β : Type}

/-- Reading fails with a fault of literals only. -/
def Blames (site : LiteralSite) (r : Except Diagnostic α) : Prop :=
  ∀ d, r = .error d → d = site.outOfRange ∨ d = site.outOfBounds

theorem blames_ok (a : α) : Blames site (.ok a) := nofun

theorem blames_outOfRange : Blames site (.error site.outOfRange : Except Diagnostic α) := by
  rintro d ⟨⟩
  exact .inl rfl

theorem blames_outOfBounds : Blames site (.error site.outOfBounds : Except Diagnostic α) := by
  rintro d ⟨⟩
  exact .inr rfl

theorem Blames.bind {r : Except Diagnostic α} {f : α → Except Diagnostic β} (hr : Blames site r)
    (hf : ∀ a, Blames site (f a)) : Blames site (r >>= f) := by
  intro d h
  rcases bind_eq_error h with h | ⟨a, -, h⟩
  · exact hr d h
  · exact hf a d h

theorem Blames.ite {p : Prop} [Decidable p] {r s : Except Diagnostic α} (hr : Blames site r)
    (hs : Blames site s) : Blames site (if p then r else s) := by
  split
  · exact hr
  · exact hs

/-! ## Readers -/

variable (site)

theorem blames_readFixed (text : String) : Blames site (readFixed site text) := by
  unfold readFixed
  split
  · exact blames_ok _
  · exact blames_outOfRange

theorem blames_readFloat (text : String) : Blames site (readFloat site text) := by
  unfold readFloat
  split
  · exact (blames_ok _).ite blames_outOfRange
  · exact blames_outOfRange

theorem blames_readBits (digits : String) (base : Nat) :
    Blames site (readBits site digits base) := by
  unfold readBits
  refine Blames.ite ?_ blames_outOfRange
  split
  · exact blames_ok _
  · exact blames_outOfRange

theorem blames_readHours (text : String) : Blames site (readHours site text) :=
  (blames_readFixed site text).bind fun _ => (blames_ok _).ite blames_outOfBounds

theorem blames_readMinutes (text : String) : Blames site (readMinutes site text) :=
  (blames_readFixed site text).bind fun _ => (blames_ok _).ite blames_outOfBounds

theorem blames_readSeconds (text : String) : Blames site (readSeconds site text) :=
  (blames_readFloat site text).bind fun _ => blames_outOfBounds.ite (blames_ok _)

theorem blames_readPart {read : String → Except Diagnostic α}
    (hread : ∀ text, Blames site (read text)) (absent : α) (text : Option String) :
    Blames site (readPart read absent text) := by
  cases text with
  | none => exact blames_ok absent
  | some text => exact hread text

/-! ## Literals -/

variable (defaults : Precisions) (value : Literal)

theorem blames_denote : Blames site (value.denote site defaults) := by
  cases value with
  | fixed text g => exact (blames_readFixed site text).bind fun _ => blames_ok _
  | float text g => exact (blames_readFloat site text).bind fun _ => blames_ok _
  | bits digits base => exact (blames_readBits site digits base).bind fun _ => blames_ok _
  | string content => exact blames_ok _
  | duration h m s =>
    refine (blames_readPart site (blames_readHours site) 0 h).bind fun _ => ?_
    refine (blames_readPart site (blames_readMinutes site) 0 m).bind fun _ => ?_
    exact (blames_readPart site (blames_readSeconds site) .zero s).bind fun _ => blames_ok _
  | clock h m s =>
    refine (blames_readHours site h).bind fun _ => ?_
    refine (blames_readMinutes site m).bind fun _ => ?_
    exact (blames_readSeconds site s).bind fun _ => blames_ok _

/-- A sign before a number adds that the opposite may be out of range. -/
theorem blames_denoteNegated : Blames site (value.denoteNegated site defaults) := by
  refine Blames.ite ((blames_denote site defaults value).bind fun k => ?_) (blames_ok _)
  cases k with
  | fixed v g => exact (blames_ok _).ite blames_outOfRange
  | _ => exact blames_ok _

end Pearl.Literal
