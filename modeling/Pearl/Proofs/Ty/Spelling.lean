import Pearl.Proofs.Text.Numeral
import Pearl.Ty

/-! # Texts of types and typings

The text of a type tells where it ends: no type is written as the beginning of another one. What is
known of an expression is written behind its type, so that all of it can be told from the text.
-/

namespace Pearl

open Text

namespace Ty

/-- A precision and the parenthesis behind it. -/
theorem size_append_inj {m n : Nat} {r s : List Char}
    (h : Nat.toDigits 10 m ++ ')' :: r = Nat.toDigits 10 n ++ ')' :: s) : m = n ∧ r = s := by
  have hstops (l : List Char) : StopsDigits (')' :: l) := stopsDigits_cons rfl
  obtain ⟨hmn, hrs⟩ := toDigits_append_inj (hstops r) (hstops s) h
  exact ⟨hmn, (List.cons.inj hrs).2⟩

/-- A type can be told from what follows it. Types that begin alike take the same arguments, and all
others differ in the first two characters. -/
theorem text_append_inj {t u : Ty} {r s : List Char} (h : t.text.toList ++ r = u.text.toList ++ s) :
    t = u ∧ r = s := by
  induction t generalizing u with
  | fixed g =>
    cases u with
    | fixed g' => simpa using size_append_inj (by simpa [text] using h)
    | _ => simp [text] at h
  | float g =>
    cases u with
    | float g' => simpa using size_append_inj (by simpa [text] using h)
    | _ => simp [text] at h
  | bit lg =>
    cases u with
    | bit lg' => simpa using size_append_inj (by simpa [text] using h)
    | _ => simp [text] at h
  | char lg =>
    cases u with
    | char lg' => simpa using size_append_inj (by simpa [text] using h)
    | _ => simp [text] at h
  | duration =>
    cases u with
    | duration => simpa using h
    | _ => simp [text] at h
  | clock =>
    cases u with
    | clock => simpa using h
    | _ => simp [text] at h
  | task =>
    cases u with
    | task => simpa using h
    | _ => simp [text] at h
  | array t ih =>
    cases u with
    | array u => simpa using ih (by simpa [text] using h)
    | _ => simp [text] at h
  | reference t ih =>
    cases u with
    | reference u => simpa using ih (by simpa [text] using h)
    | _ => simp [text] at h

end Ty

theorem SymbolId.text_injective : Function.Injective SymbolId.text := by
  intro x y h
  have hdigits : Nat.toDigits 10 x.index ++ [] = Nat.toDigits 10 y.index ++ [] := by
    simpa [text] using congrArg String.toList h
  cases x
  cases y
  exact congrArg SymbolId.mk (toDigits_append_inj stopsDigits_nil stopsDigits_nil hdigits).1

namespace Typing

/-- The variable as it is written, after an arrow. -/
def varText (var : Option SymbolId) : String := var.elim "" (" -> " ++ ·.text)

theorem varText_injective : Function.Injective varText := by
  intro v w h
  have hlist := congrArg String.toList h
  cases v with
  | none =>
    cases w with
    | none => rfl
    | some y => simp [varText] at hlist
  | some x =>
    cases w with
    | none => simp [varText] at hlist
    | some y =>
      have htext : x.text = y.text := String.toList_inj.mp (by simpa [varText] using hlist)
      rw [SymbolId.text_injective htext]

/-- What is written behind the type. -/
def suffix (r : Typing) : String := (if r.constant then " const" else "") ++ varText r.var

theorem text_eq (r : Typing) : r.text = r.ty.text ++ r.suffix := by
  obtain ⟨ty, constant, var⟩ := r
  cases var <;> simp [text, suffix, varText, String.append_assoc]

/-- An arrow is no mark of a constant. -/
theorem const_append_ne (v w : Option SymbolId) : " const" ++ varText v ≠ varText w := by
  intro h
  have hlist := congrArg String.toList h
  cases w with
  | none => simp [varText] at hlist
  | some y => simp [varText] at hlist

theorem suffix_inj {r s : Typing} (h : r.suffix = s.suffix) :
    r.constant = s.constant ∧ r.var = s.var := by
  obtain ⟨ty, constant, var⟩ := r
  obtain ⟨ty', constant', var'⟩ := s
  cases constant with
  | true =>
    cases constant' with
    | true => exact ⟨rfl, varText_injective (by simpa [suffix] using h)⟩
    | false => exact absurd (by simpa [suffix] using h) (const_append_ne var var')
  | false =>
    cases constant' with
    | true => exact absurd (by simpa [suffix] using h.symm) (const_append_ne var' var)
    | false => exact ⟨rfl, varText_injective (by simpa [suffix] using h)⟩

/-- Typings with one text are equal, and so are types. -/
theorem text_unambiguous : Function.Injective Typing.text ∧ Function.Injective Ty.text := by
  constructor
  · intro r s h
    rw [text_eq, text_eq, ← String.toList_inj, String.toList_append, String.toList_append] at h
    obtain ⟨hty, hsuffix⟩ := Ty.text_append_inj h
    obtain ⟨hconstant, hvar⟩ := suffix_inj (String.toList_inj.mp hsuffix)
    cases r
    cases s
    cases hty
    cases hconstant
    cases hvar
    rfl
  · intro t u h
    have hlist : t.text.toList ++ [] = u.text.toList ++ [] := by rw [h]
    exact (Ty.text_append_inj hlist).1

end Typing

end Pearl
