import Mathlib.Data.Option.Basic
import Pearl.Json.Scan
import Pearl.Proofs.Text.Numeral

/-! # Scanning what was written

A string and a number can be read back from their JSON text, whatever stands behind them, as long as
that does not go on with the number.
-/

namespace Pearl.Json

open Text

variable {c d : Char} {cs rest : List Char}

/-! ## Marks and words -/

theorem skipBlanks_cons (h : isBlank c = false) : skipBlanks (c :: cs) = c :: cs :=
  List.dropWhile_cons_of_neg (by simp [h])

theorem mark?_self (h : isBlank c = false) : mark? c (c :: cs) = some cs := by
  simp [mark?, skipBlanks_cons h]

theorem mark?_of_ne (h : isBlank d = false) (hne : d ≠ c) : mark? c (d :: cs) = none := by
  simp [mark?, skipBlanks_cons h, hne]

@[simp] theorem mark?_open : mark? '\x7b' ('\x7b' :: cs) = some cs := mark?_self rfl

@[simp] theorem mark?_colon : mark? ':' (':' :: cs) = some cs := mark?_self rfl

@[simp] theorem mark?_comma : mark? ',' (',' :: cs) = some cs := mark?_self rfl

@[simp] theorem mark?_close : mark? '\x7d' ('\x7d' :: cs) = some cs := mark?_self rfl

theorem word?_append {word : String} (h : word.toList = c :: cs) (hc : isBlank c = false) :
    word? word (word.toList ++ rest) = some rest := by
  have hskip : skipBlanks (word.toList ++ rest) = word.toList ++ rest := by
    rw [h, List.cons_append, skipBlanks_cons hc]
  have hlength : word.length = word.toList.length := String.length_toList.symm
  simp [word?, hskip, hlength]

theorem word?_of_ne {word : String} {cs' : List Char} (h : word.toList = c :: cs')
    (hd : isBlank d = false) (hne : c ≠ d) : word? word (d :: cs) = none := by
  simp [word?, skipBlanks_cons hd, h, hne]

/-! ## Strings -/

/-- A character in front of what is read. -/
def followed (c : Char) (read : Option (List Char × List Char)) : Option (List Char × List Char) :=
  read.bind fun p => some (c :: p.1, p.2)

theorem readContent_letter (h : unescape? d = some c) :
    readContent ('\\' :: d :: rest) = followed c (readContent rest) := by
  have hu : d ≠ 'u' := by
    rintro rfl
    simp [unescape?] at h
  simp [readContent, followed, h, hu]

theorem readContent_code {a b : Char} {n : Nat} (h : hex4? '0' '0' a b = some n) (hn : n < 0xD800)
    (rest : List Char) : readContent ('\\' :: 'u' :: '0' :: '0' :: a :: b :: rest) =
      followed (Char.ofNat n) (readContent rest) := by
  have hhigh : isHighSurrogate n = false := by
    simp only [isHighSurrogate, Bool.and_eq_false_iff, decide_eq_false_iff_not]
    omega
  have hlow : isLowSurrogate n = false := by
    simp only [isLowSurrogate, Bool.and_eq_false_iff, decide_eq_false_iff_not]
    omega
  simp [readContent, followed, h, hhigh, hlow]

theorem readContent_plain (hquote : c ≠ '"') (hslash : c ≠ '\\') (hcontrol : ¬c < ' ') :
    readContent (c :: rest) = followed c (readContent rest) := by
  simp [readContent, followed, hslash, hcontrol]

theorem hexValue?_hexDigit {n : Nat} (h : n < 16) : hexValue? (hexDigit n) = some n := by
  revert n
  decide

/-- The code of a control character takes two digits. -/
theorem hex4?_hexDigit {n : Nat} (h : n < 0x20) :
    hex4? '0' '0' (hexDigit (n / 16)) (hexDigit (n % 16)) = some n := by
  have hzero : hexValue? '0' = some 0 := rfl
  have hhigh := hexValue?_hexDigit (show n / 16 < 16 by omega)
  have hlow := hexValue?_hexDigit (show n % 16 < 16 by omega)
  have hdigits : n / 16 * 16 + n % 16 = n := Nat.div_add_mod' n 16
  simp [hex4?, hzero, hhigh, hlow, hdigits]

/-- An escape is read as the character that it stands for. Seven of them have a letter. -/
theorem readContent_escape (c : Char) (rest : List Char) :
    readContent (escape c ++ rest) = followed c (readContent rest) := by
  unfold escape
  iterate 7
    split
    · next h =>
      subst h
      exact readContent_letter rfl
  split
  · next h =>
    have hcode := readContent_code (hex4?_hexDigit h) (by omega) rest
    rwa [Char.ofNat_toNat] at hcode
  · next hquote hslash _ _ _ _ _ hcontrol =>
    exact readContent_plain hquote hslash hcontrol

theorem readContent_append (cs rest : List Char) :
    readContent (cs.flatMap escape ++ '"' :: rest) = some (cs, rest) := by
  induction cs with
  | nil => simp [readContent]
  | cons c cs ih =>
    rw [List.flatMap_cons, List.append_assoc, readContent_escape, ih]
    rfl

/-- A string is read back. -/
@[simp] theorem readString_quote (s : String) (rest : List Char) :
    readString (quote s ++ rest) = some (s, rest) := by
  have hquote : quote s ++ rest = '"' :: (s.toList.flatMap escape ++ '"' :: rest) := by simp [quote]
  have hmark : mark? '"' (quote s ++ rest) = some (s.toList.flatMap escape ++ '"' :: rest) := by
    rw [hquote, mark?_self rfl]
  simp [readString, hmark, readContent_append]

/-! ## Numbers -/

/-- The text does not go on with a number. -/
def StopsNumber (rest : List Char) : Prop :=
  ∀ c ∈ rest.head?, c.isDigit = false ∧ c ≠ '.' ∧ c ≠ 'e' ∧ c ≠ 'E'

/-- A number ends at a closing brace. -/
theorem stopsNumber_close : StopsNumber ('\x7d' :: rest) := by
  intro c hc
  cases hc
  decide

theorem wholeDigits_toDigits (n : Nat) (hrest : StopsDigits rest) :
    wholeDigits (Nat.toDigits 10 n ++ rest) = some (Nat.toDigits 10 n, rest) := by
  have hdigits := isDigits_toDigits n
  have hzero :
      ((Nat.toDigits 10 n).head? == some '0' && 1 < (Nat.toDigits 10 n).length) = false := by
    rcases Nat.eq_zero_or_pos n with rfl | hpos
    · rfl
    · simp [head?_toDigits hpos]
  simp only [wholeDigits, hdigits.takeWhile_append hrest, hdigits.dropWhile_append hrest, hzero,
    List.isEmpty_eq_false_iff.mpr hdigits.1]
  rfl

theorem isBlank_of_isDigit (h : c.isDigit = true) : isBlank c = false := by
  have hc : 48 ≤ c.toNat ∧ c.toNat ≤ 57 := Char.isDigit_iff_toNat.mp h
  by_contra hblank
  simp only [isBlank, Bool.or_eq_true, beq_iff_eq, Bool.not_eq_false] at hblank
  rcases hblank with ((rfl | rfl) | rfl) | rfl <;> simp at hc

/-- A number below the limit is read back. -/
theorem readNatBelow_toDigits {limit n : Nat} (hn : n < limit) (hrest : StopsNumber rest) :
    readNatBelow limit (Nat.toDigits 10 n ++ rest) = some (n, rest) := by
  have hskip : skipBlanks (Nat.toDigits 10 n ++ rest) = Nat.toDigits 10 n ++ rest := by
    obtain ⟨d, ds, hds, hd⟩ := exists_toDigits_eq_cons n
    rw [hds, List.cons_append, skipBlanks_cons (isBlank_of_isDigit hd)]
  have hwhole := wholeDigits_toDigits n fun c hc => (hrest c hc).1
  have hne : rest.head? ≠ some '.' ∧ rest.head? ≠ some 'e' ∧ rest.head? ≠ some 'E' :=
    ⟨fun h => (hrest _ h).2.1 rfl, fun h => (hrest _ h).2.2.1 rfl, fun h => (hrest _ h).2.2.2 rfl⟩
  simp [readNatBelow, hskip, hwhole, hne, hn]

/-- A number does not begin with a letter. -/
theorem word?_toDigits {word : String} (h : word.toList = c :: cs) (hc : c.isDigit = false)
    (n : Nat) : word? word (Nat.toDigits 10 n ++ rest) = none := by
  obtain ⟨d, ds, hds, hd⟩ := exists_toDigits_eq_cons n
  rw [hds]
  refine word?_of_ne h (isBlank_of_isDigit hd) ?_
  rintro rfl
  simp [hd] at hc

theorem lt_of_readNatBelow {limit n : Nat} (h : readNatBelow limit cs = some (n, rest)) :
    n < limit := by
  simp only [readNatBelow, Option.bind_eq_bind, Option.bind_eq_some_iff] at h
  obtain ⟨⟨digits, rest'⟩, -, _, -, _, hlimit, h⟩ := h
  cases h
  by_contra hn
  simp [guard, hn] at hlimit

/-! ## Whole texts -/

variable {α : Type} {read : List Char → Option (α × List Char)} {a : α}

theorem whole_compactText {j : Json} (h : read (j.compact ++ []) = some (a, [])) :
    whole read j.compactText = some a := by
  rw [List.append_nil] at h
  rw [whole, compactText, String.toList_ofList, h]
  rfl

theorem exists_of_whole {text : String} (h : whole read text = some a) :
    ∃ rest, read text.toList = some (a, rest) := by
  simp only [whole, Option.bind_eq_bind, Option.bind_eq_some_iff] at h
  obtain ⟨⟨b, rest⟩, hread, _, -, h⟩ := h
  cases h
  exact ⟨rest, hread⟩

end Pearl.Json
