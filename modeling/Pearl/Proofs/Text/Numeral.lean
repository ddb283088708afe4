import Mathlib.Data.List.TakeWhile
import Mathlib.Tactic.Common
import Pearl.Text.Blank
import Pearl.Text.Numeral

/-! # Reading decimal numerals

A run of decimal digits of any length, leading zeros included, is read as its value, if that fits a
word, and as the opposite of its value after a minus sign. The words are not symmetric: the lowest
has no opposite. The texts that are read are exactly those of a numeral, with or without a sign,
between blanks.
-/

namespace Pearl.Text

/-- One or more decimal digits. -/
def IsDigits (cs : List Char) : Prop := cs ≠ [] ∧ ∀ c ∈ cs, c.isDigit = true

instance (cs : List Char) : Decidable (IsDigits cs) :=
  decidable_of_iff (cs ≠ [] ∧ cs.all Char.isDigit = true)
    (and_congr_right fun _ => List.all_eq_true)

variable {cs : List Char}

/-! ## Blanks -/

theorem trimBlanks_of_forall (h : ∀ c ∈ cs, isBlank c = false) : trimBlanks cs = cs := by
  have hdrop : ∀ l : List Char, (∀ c ∈ l, isBlank c = false) → l.dropWhile isBlank = l := by
    intro l hl
    cases l with
    | nil => rfl
    | cons c l => exact List.dropWhile_cons_of_neg (by simp [hl c])
  unfold trimBlanks
  rw [hdrop cs h, hdrop cs.reverse fun c hc => h c (List.mem_reverse.mp hc), List.reverse_reverse]

theorem isBlank_of_isDigit {c : Char} (h : c.isDigit = true) : isBlank c = false := by
  have hc : 48 ≤ c.toNat ∧ c.toNat ≤ 57 := Char.isDigit_iff_toNat.mp h
  simp only [isBlank, blankRanges, List.any_cons, List.any_nil, Bool.or_false, Bool.or_eq_false_iff,
    Bool.and_eq_false_iff, decide_eq_false_iff_not]
  omega

/-! ## Numerals -/

theorem fitsWord_natCast {n : Nat} : FitsWord n ↔ n < Nat.pow 2 63 := by
  unfold FitsWord
  omega

theorem fitsWord_neg_natCast {n : Nat} : FitsWord (-n) ↔ n ≤ Nat.pow 2 63 := by
  have hpos : 0 < Nat.pow 2 63 := by decide
  unfold FitsWord
  omega

namespace IsDigits

variable (h : IsDigits cs)
include h

theorem trimBlanks_eq : trimBlanks cs = cs :=
  trimBlanks_of_forall fun c hc => isBlank_of_isDigit (h.2 c hc)

theorem trimBlanks_minus : trimBlanks ('-' :: cs) = '-' :: cs := by
  apply trimBlanks_of_forall
  intro c hc
  rcases List.mem_cons.mp hc with rfl | hc
  · decide
  · exact isBlank_of_isDigit (h.2 c hc)

theorem natural?_eq : natural? cs = some (digitsValue cs) := by
  have hempty : cs.isEmpty = false := List.isEmpty_eq_false_iff.mpr h.1
  have hall : cs.all Char.isDigit = true := List.all_eq_true.mpr h.2
  simp [natural?, hempty, hall]

/-- A digit is no sign. -/
theorem integer?_eq : integer? cs = some (digitsValue cs : Int) := by
  have hsign : ∀ c ∈ cs, c ≠ '+' ∧ c ≠ '-' := by
    intro c hc
    have hdigit := h.2 c hc
    constructor
    · rintro rfl
      exact absurd hdigit (by decide)
    · rintro rfl
      exact absurd hdigit (by decide)
  unfold integer?
  split
  · exact absurd rfl (hsign _ (List.mem_cons_self ..)).1
  · exact absurd rfl (hsign _ (List.mem_cons_self ..)).2
  · rw [h.natural?_eq]
    rfl

theorem integer?_minus : integer? ('-' :: cs) = some (-(digitsValue cs : Int)) := by
  rw [integer?, h.natural?_eq]
  rfl

theorem word?_eq : word? cs = if digitsValue cs <
    Nat.pow 2 63 then some (digitsValue cs : Int) else none := by
  rw [word?, h.integer?_eq, Option.filter_some]
  simp only [decide_eq_true_eq, fitsWord_natCast]

theorem word?_minus : word? ('-' :: cs) =
    if digitsValue cs ≤ Nat.pow 2 63 then some (-(digitsValue cs : Int)) else none := by
  rw [word?, h.integer?_minus, Option.filter_some]
  simp only [decide_eq_true_eq, fitsWord_neg_natCast]

end IsDigits

/-! ## Numerals as they are written -/

theorem isDigits_toDigits (n : Nat) : IsDigits (Nat.toDigits 10 n) :=
  ⟨Nat.toDigits_ne_nil, fun _ hc => Nat.isDigit_of_mem_toDigits (by decide) (by decide) hc⟩

theorem exists_toDigits_eq_cons (n : Nat) :
    ∃ d ds, Nat.toDigits 10 n = d :: ds ∧ d.isDigit = true := by
  obtain ⟨hne, hdigits⟩ := isDigits_toDigits n
  obtain ⟨d, ds, hds⟩ := List.exists_cons_of_ne_nil hne
  exact ⟨d, ds, hds, hdigits d (by simp [hds])⟩

@[simp] theorem digitsValue_toDigits (n : Nat) : digitsValue (Nat.toDigits 10 n) = n :=
  Nat.ofDigitChars_ten_toDigits

/-- No idle zero stands in front. -/
theorem head?_toDigits {n : Nat} (h : 0 < n) : (Nat.toDigits 10 n).head? ≠ some '0' := by
  have hdigit : ∀ d < 10, 0 < d → Nat.digitChar d ≠ '0' := by decide
  induction n using Nat.strongRecOn with
  | ind n ih =>
    rcases Nat.lt_or_ge n 10 with hlt | hge
    · simpa [Nat.toDigits_of_lt_base hlt] using hdigit n hlt h
    · have hfront := ih (n / 10) (by omega) (by omega)
      obtain ⟨d, ds, hds, -⟩ := exists_toDigits_eq_cons (n / 10)
      rw [Nat.toDigits_of_base_le (by decide) hge, hds]
      simpa [hds] using hfront

/-- The text does not go on with a digit. -/
def StopsDigits (rest : List Char) : Prop := ∀ c ∈ rest.head?, c.isDigit = false

theorem stopsDigits_nil : StopsDigits [] := by simp [StopsDigits]

theorem stopsDigits_cons {c : Char} {rest : List Char} (h : c.isDigit = false) :
    StopsDigits (c :: rest) := by
  simpa [StopsDigits] using h

section Stops

variable {rest : List Char} (hrest : StopsDigits rest)
include hrest

theorem IsDigits.takeWhile_append (h : IsDigits cs) : (cs ++ rest).takeWhile Char.isDigit = cs := by
  rw [List.takeWhile_append_of_pos h.2]
  cases rest with
  | nil => simp
  | cons c rest => simp [hrest c rfl]

theorem IsDigits.dropWhile_append (h : IsDigits cs) :
    (cs ++ rest).dropWhile Char.isDigit = rest := by
  rw [List.dropWhile_append_of_pos h.2]
  cases rest with
  | nil => rfl
  | cons c rest => simp [hrest c rfl]

/-- A number can be told from what follows it. -/
theorem toDigits_append_inj {m n : Nat} {rest' : List Char} (hrest' : StopsDigits rest')
    (h : Nat.toDigits 10 m ++ rest = Nat.toDigits 10 n ++ rest') : m = n ∧ rest = rest' := by
  have hdigits := congrArg (List.takeWhile Char.isDigit) h
  rw [(isDigits_toDigits m).takeWhile_append hrest, (isDigits_toDigits n).takeWhile_append hrest']
    at hdigits
  have hvalue := congrArg digitsValue hdigits
  rw [digitsValue_toDigits, digitsValue_toDigits] at hvalue
  exact ⟨hvalue, List.append_cancel_left (hdigits ▸ h)⟩

end Stops

/-! ## Texts of numbers -/

/-- Decimal digits, with or without a sign, that denote the number. -/
inductive Numeral : List Char → Int → Prop
  | plain {ds : List Char} (h : IsDigits ds) : Numeral ds (digitsValue ds)
  | plus {ds : List Char} (h : IsDigits ds) : Numeral ('+' :: ds) (digitsValue ds)
  | minus {ds : List Char} (h : IsDigits ds) : Numeral ('-' :: ds) (-(digitsValue ds : Int))

/-- The text has blanks, a numeral of the number, and blanks again, and the number fits a word. -/
def SpellsWord (text : String) (v : Int) : Prop :=
  FitsWord v ∧ ∃ before cs after, text.toList = before ++ cs ++ after ∧ Numeral cs v ∧
    (∀ c ∈ before, isBlank c = true) ∧ ∀ c ∈ after, isBlank c = true

theorem natural?_eq_some_iff {n : Nat} :
    natural? cs = some n ↔ IsDigits cs ∧ digitsValue cs = n := by
  constructor
  · intro h
    unfold natural? at h
    split at h
    · cases h
    · next hdigits =>
      have hcs : cs ≠ [] ∧ cs.all Char.isDigit = true := by simpa using hdigits
      exact ⟨⟨hcs.1, List.all_eq_true.mp hcs.2⟩, Option.some.inj h⟩
  · rintro ⟨hdigits, rfl⟩
    exact hdigits.natural?_eq

theorem integer?_eq_some_iff {v : Int} : integer? cs = some v ↔ Numeral cs v := by
  constructor
  · intro h
    unfold integer? at h
    split at h <;> obtain ⟨n, hn, rfl⟩ := Option.map_eq_some_iff.mp h <;>
      obtain ⟨hdigits, rfl⟩ := natural?_eq_some_iff.mp hn
    · exact .plus hdigits
    · exact .minus hdigits
    · exact .plain hdigits
  · intro h
    cases h with
    | plain hdigits => exact hdigits.integer?_eq
    | plus hdigits =>
      rw [integer?, hdigits.natural?_eq]
      rfl
    | minus hdigits => exact hdigits.integer?_minus

theorem Numeral.ne_nil {v : Int} (h : Numeral cs v) : cs ≠ [] := by
  cases h with
  | plain h => exact h.1
  | plus | minus => exact List.cons_ne_nil _ _

theorem Numeral.isBlank_eq_false {v : Int} (h : Numeral cs v) : ∀ c ∈ cs, isBlank c = false := by
  cases h with
  | plain h => exact fun c hc => isBlank_of_isDigit (h.2 c hc)
  | plus h | minus h =>
    exact List.forall_mem_cons.mpr ⟨by decide, fun c hc => isBlank_of_isDigit (h.2 c hc)⟩

/-- Trimming takes off blanks at both ends. -/
theorem exists_eq_append_trimBlanks (cs : List Char) : ∃ before after,
    cs = before ++ trimBlanks cs ++ after ∧ (∀ c ∈ before, isBlank c = true) ∧
      ∀ c ∈ after, isBlank c = true := by
  have htake (l : List Char) : ∀ c ∈ l.takeWhile isBlank, isBlank c = true :=
    fun _ => List.mem_takeWhile_imp
  let rest := cs.dropWhile isBlank
  refine ⟨cs.takeWhile isBlank, (rest.reverse.takeWhile isBlank).reverse, ?_, htake cs, ?_⟩
  · have hrest : rest = trimBlanks cs ++ (rest.reverse.takeWhile isBlank).reverse := by
      unfold trimBlanks
      rw [← List.reverse_append, List.takeWhile_append_dropWhile, List.reverse_reverse]
    rw [List.append_assoc, ← hrest, List.takeWhile_append_dropWhile]
  · exact fun c hc => htake _ c (List.mem_reverse.mp hc)

/-- Nothing else is taken off. -/
theorem trimBlanks_append {before after : List Char} (hbefore : ∀ c ∈ before, isBlank c = true)
    (hafter : ∀ c ∈ after, isBlank c = true) (hne : cs ≠ []) (hcs : ∀ c ∈ cs, isBlank c = false) :
    trimBlanks (before ++ cs ++ after) = cs := by
  have hdrop {ends l rest : List Char} (hends : ∀ c ∈ ends, isBlank c = true) (hl : l ≠ [])
      (hblank : ∀ c ∈ l, isBlank c = false) :
      (ends ++ (l ++ rest)).dropWhile isBlank = l ++ rest := by
    rw [List.dropWhile_append_of_pos hends]
    cases l with
    | nil => exact absurd rfl hl
    | cons c l => exact List.dropWhile_cons_of_neg (by simp [hblank c])
  unfold trimBlanks
  rw [List.append_assoc, hdrop hbefore hne hcs, List.reverse_append,
    ← List.append_nil cs.reverse, hdrop, List.append_nil, List.reverse_reverse]
  · exact fun c hc => hafter c (List.mem_reverse.mp hc)
  · exact mt List.reverse_eq_nil_iff.mp hne
  · exact fun c hc => hcs c (List.mem_reverse.mp hc)

/-- What is read as a word, once it is trimmed, is the text of one. -/
theorem word?_trimBlanks_eq_some_iff {text : String} {v : Int} :
    word? (trimBlanks text.toList) = some v ↔ SpellsWord text v := by
  rw [word?, Option.filter_eq_some_iff, integer?_eq_some_iff, decide_eq_true_eq, and_comm]
  refine and_congr_right fun _ => ?_
  constructor
  · intro h
    obtain ⟨before, after, hsplit, hbefore, hafter⟩ := exists_eq_append_trimBlanks text.toList
    exact ⟨before, _, after, hsplit, h, hbefore, hafter⟩
  · rintro ⟨before, cs, after, hsplit, h, hbefore, hafter⟩
    rw [hsplit, trimBlanks_append hbefore hafter h.ne_nil h.isBlank_eq_false]
    exact h

end Pearl.Text
