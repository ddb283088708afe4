import Mathlib.Data.List.Basic
import Mathlib.Data.Nat.Digits.Defs
import Pearl.Literal.Denotation
import Pearl.Proofs.Operator.Precision

/-! # Bit strings

The digits of a bit string stand for their values in one of the radices 2, 4, 8 and 16. The pattern
is the same number in binary, where each digit has its share of the bits, leading zeros included. So
the digits can be written again from the pattern, but for their letter case, and strings that are
put together have their patterns put together.
-/

namespace Pearl

/-! ## Digits -/

namespace Text

/-- The hexadecimal digits in the order of their values. -/
def hexDigits : List Char :=
  ['0', '1', '2', '3', '4', '5', '6', '7', '8', '9', 'A', 'B', 'C', 'D', 'E', 'F']

/-- The value of a hexadecimal digit in either letter case. -/
def digitValue (c : Char) : Nat := hexDigits.idxOf c.toUpper

/-- The number that digits denote in a radix, the most significant first. -/
def valueIn (radix : Nat) (digits : List Nat) : Nat := Nat.ofDigits radix digits.reverse

theorem toUpper_of_le {c : Char} (h : 128 ≤ c.toNat) : c.toUpper = c := by
  unfold Char.toUpper
  rw [dif_neg]
  rintro ⟨-, hz⟩
  have hz' : c.toNat ≤ 122 := hz
  omega

theorem hexValue?_of_le {c : Char} (h : 128 ≤ c.toNat) : hexValue? c = none := by
  have hlarge : ∀ d : Char, d.toNat < 128 → ¬c ≤ d := by
    intro d hd hle
    have hle' : c.toNat ≤ d.toNat := hle
    omega
  simp [hexValue?, hlarge]

/-- A hexadecimal digit is one of the list, when written in upper case. -/
theorem hexValue?_eq_ite (c : Char) :
    hexValue? c = if c.toUpper ∈ hexDigits then some (digitValue c) else none := by
  by_cases hascii : c.toNat < 128
  · have hall : ∀ n < 128, hexValue? (Char.ofNat n) =
        if (Char.ofNat n).toUpper ∈ hexDigits then some (digitValue (Char.ofNat n)) else none := by
      decide +kernel
    have hc := hall c.toNat hascii
    rwa [Char.ofNat_toNat] at hc
  · have hdigits : ∀ d ∈ hexDigits, d.toNat < 128 := by simp [hexDigits]
    have hle : 128 ≤ c.toNat := Nat.le_of_not_lt hascii
    rw [hexValue?_of_le hle, toUpper_of_le hle, if_neg fun hc => hascii (hdigits c hc)]

theorem valueIn_cons (radix d : Nat) (ds : List Nat) :
    valueIn radix (d :: ds) = d * radix ^ ds.length + valueIn radix ds := by
  rw [valueIn, Nat.ofDigits_reverse_cons, Nat.add_comm, Nat.mul_comm]
  rfl

theorem valueIn_append (radix : Nat) (ds es : List Nat) :
    valueIn radix (ds ++ es) = valueIn radix ds * radix ^ es.length + valueIn radix es := by
  rw [valueIn, List.reverse_append, Nat.ofDigits_append, List.length_reverse, Nat.add_comm,
    Nat.mul_comm]
  rfl

end Text

namespace Literal

open Text

/-! ## Bits -/

/-- The number that bits denote, the most significant first. -/
def bitsValue (pattern : List Bool) : Nat := valueIn 2 (pattern.map Bool.toNat)

@[simp] theorem length_bitsOf (width n : Nat) : (bitsOf width n).length = width := by
  simp [bitsOf]

theorem bitsOf_succ (width n : Nat) : bitsOf (width + 1) n = n.testBit width :: bitsOf width n := by
  simp [bitsOf, List.range_succ]

theorem bitsValue_cons (b : Bool) (pattern : List Bool) :
    bitsValue (b :: pattern) = b.toNat * 2 ^ pattern.length + bitsValue pattern := by
  rw [bitsValue, List.map_cons, valueIn_cons, List.length_map]
  rfl

theorem bitsValue_append (pattern rest : List Bool) :
    bitsValue (pattern ++ rest) = bitsValue pattern * 2 ^ rest.length + bitsValue rest := by
  rw [bitsValue, List.map_append, valueIn_append, List.length_map]
  rfl

/-- The lowest bits of a number denote its remainder. -/
theorem bitsValue_bitsOf (width n : Nat) : bitsValue (bitsOf width n) = n % 2 ^ width := by
  induction width with
  | zero => exact (Nat.mod_one n).symm
  | succ width ih =>
    rw [bitsOf_succ, bitsValue_cons, length_bitsOf, ih, Nat.toNat_testBit, Nat.mod_pow_succ,
      Nat.add_comm, Nat.mul_comm]

/-- Patterns of one length that denote the same number are equal. -/
theorem eq_of_bitsValue_eq {pattern pattern' : List Bool}
    (hlength : pattern.length = pattern'.length) (h : bitsValue pattern = bitsValue pattern') :
    pattern = pattern' := by
  have hbits : ∀ bits : List Bool, ∀ d ∈ (bits.map Bool.toNat).reverse, d < 2 := by
    intro bits d hd
    obtain ⟨b, -, rfl⟩ := List.mem_map.mp (List.mem_reverse.mp hd)
    exact b.toNat_lt
  have hdigits := Nat.ofDigits_inj_of_len_eq Nat.one_lt_two (by simpa using hlength) (hbits pattern)
    (hbits pattern') h
  have hinjective : Function.Injective Bool.toNat := by
    intro b b' hb
    cases b <;> cases b' <;> simp_all
  exact List.map_injective_iff.mpr hinjective (List.reverse_injective hdigits)

/-! ## Groups of bits -/

/-- The first `n` groups of `width` bits. -/
def groups (width : Nat) : Nat → List Bool → List (List Bool)
  | 0, _ => []
  | n + 1, pattern => pattern.take width :: groups width n (pattern.drop width)

/-- A pattern cut into groups of `width` bits. -/
def cut (width : Nat) (pattern : List Bool) : List (List Bool) :=
  groups width (pattern.length / width) pattern

/-- What is put together from groups of one width is cut into these groups. -/
theorem groups_flatMap {α : Type} {width : Nat} {f : α → List Bool} (hf : ∀ a, (f a).length = width)
    (as : List α) : groups width as.length (as.flatMap f) = as.map f := by
  induction as with
  | nil => rfl
  | cons a as ih =>
    rw [List.flatMap_cons, List.length_cons, groups, List.take_left' (hf a), List.drop_left' (hf a),
      ih, List.map_cons]

/-! ## Patterns -/

/-- A digit of `base` bits. -/
def IsDigit (base : Nat) (c : Char) : Prop := c.toUpper ∈ hexDigits.take (2 ^ base)

/-- Digits of one to four bits each. -/
def IsBitString (digits : String) (base : Nat) : Prop :=
  (1 ≤ base ∧ base ≤ 4) ∧ ∀ c ∈ digits.toList, IsDigit base c

instance (digits : String) (base : Nat) : Decidable (IsBitString digits base) :=
  decidable_of_iff ((1 ≤ base ∧ base ≤ 4) ∧
      digits.toList.all (fun c => (hexDigits.take (2 ^ base)).contains c.toUpper) = true)
    (and_congr_right fun _ => by simp [IsDigit])

/-- The bits of digits in their order. -/
def expand (base : Nat) (cs : List Char) : List Bool :=
  cs.flatMap fun c => bitsOf base (digitValue c)

variable {base : Nat} {c : Char} {cs : List Char} {pattern : List Bool}

theorem isDigit_iff : IsDigit base c ↔ c.toUpper ∈ hexDigits ∧ digitValue c < 2 ^ base := by
  constructor
  · intro h
    have hmem := List.mem_of_mem_take h
    exact ⟨hmem, (List.mem_take_iff_idxOf_lt hmem).mp h⟩
  · rintro ⟨hmem, hlt⟩
    exact (List.mem_take_iff_idxOf_lt hmem).mpr hlt

theorem digitBits?_eq_some_iff :
    digitBits? base c = some pattern ↔ IsDigit base c ∧ pattern = bitsOf base (digitValue c) := by
  rw [isDigit_iff, digitBits?, hexValue?_eq_ite]
  by_cases hmem : c.toUpper ∈ hexDigits
  · by_cases hlt : digitValue c < 2 ^ base <;> simp [hmem, hlt, eq_comm]
  · simp [hmem]

theorem pattern?_eq_some_iff :
    pattern? base cs = some pattern ↔ (∀ c ∈ cs, IsDigit base c) ∧ pattern = expand base cs := by
  induction cs generalizing pattern with
  | nil => simp [pattern?, expand, eq_comm]
  | cons c cs ih =>
    simp only [pattern?, Option.bind_eq_bind, Option.bind_eq_some_iff, digitBits?_eq_some_iff, ih,
      Option.pure_def, Option.some.injEq, List.forall_mem_cons]
    constructor
    · rintro ⟨_, ⟨hc, rfl⟩, _, ⟨hcs, rfl⟩, rfl⟩
      exact ⟨⟨hc, hcs⟩, rfl⟩
    · rintro ⟨⟨hc, hcs⟩, rfl⟩
      exact ⟨_, ⟨hc, rfl⟩, _, ⟨hcs, rfl⟩, rfl⟩

/-- The bits of a digit denote its value. -/
theorem bitsValue_digit (h : IsDigit base c) :
    bitsValue (bitsOf base (digitValue c)) = digitValue c := by
  rw [bitsValue_bitsOf, Nat.mod_eq_of_lt (isDigit_iff.mp h).2]

theorem length_expand (base : Nat) (cs : List Char) :
    (expand base cs).length = base * cs.length := by
  simp [expand, List.length_flatMap, Nat.mul_comm]

/-- The pattern denotes the number that the digits denote. -/
theorem bitsValue_expand (h : ∀ c ∈ cs, IsDigit base c) :
    bitsValue (expand base cs) = valueIn (2 ^ base) (cs.map digitValue) := by
  induction cs with
  | nil => rfl
  | cons c cs ih =>
    obtain ⟨hc, hcs⟩ := List.forall_mem_cons.mp h
    calc bitsValue (expand base (c :: cs))
        = bitsValue (bitsOf base (digitValue c)) * 2 ^ (expand base cs).length +
            bitsValue (expand base cs) := bitsValue_append ..
      _ = digitValue c * (2 ^ base) ^ cs.length + valueIn (2 ^ base) (cs.map digitValue) := by
        rw [bitsValue_digit hc, length_expand, Nat.pow_mul, ih hcs]
      _ = valueIn (2 ^ base) ((c :: cs).map digitValue) := by
        rw [List.map_cons, valueIn_cons, List.length_map]

/-- Writing a digit for each group of bits gives the digits again, in upper case. -/
theorem map_cut_expand (hbase : 1 ≤ base) (h : ∀ c ∈ cs, IsDigit base c) :
    (cut base (expand base cs)).map (fun group => hexDigits[bitsValue group]?) =
      cs.map fun c => some c.toUpper := by
  have hgroups : cut base (expand base cs) = cs.map fun c => bitsOf base (digitValue c) := by
    rw [cut, length_expand, Nat.mul_div_cancel_left _ hbase]
    exact groups_flatMap (fun c => length_bitsOf base _) cs
  rw [hgroups, List.map_map]
  apply List.map_congr_left
  intro c hc
  rw [Function.comp_apply, bitsValue_digit (h c hc)]
  exact List.getElem?_idxOf (isDigit_iff.mp (h c hc)).1

/-! ## Reading -/

section Read

variable {site : LiteralSite} {digits : String}

theorem readBits_eq_ok_iff : readBits site digits base = .ok pattern ↔
    IsBitString digits base ∧ pattern = expand base digits.toList := by
  unfold readBits IsBitString
  split
  · rename_i hbase
    rw [and_iff_right hbase, ← pattern?_eq_some_iff]
    cases pattern? base digits.toList <;> simp
  · rename_i hbase
    simp [hbase]

theorem readBits_of_not_isBitString (h : ¬IsBitString digits base) :
    readBits site digits base = .error site.outOfRange := by
  cases hread : readBits site digits base with
  | ok pattern => exact (h (readBits_eq_ok_iff.mp hread).1).elim
  | error d =>
    unfold readBits at hread
    split at hread
    · split at hread <;> cases hread
      rfl
    · cases hread
      rfl

/-- Strings of digits that are put together are read as their patterns put together. -/
theorem readBits_append {digits' : String} {pattern' : List Bool} {site' : LiteralSite}
    (h : readBits site digits base = .ok pattern)
    (h' : readBits site' digits' base = .ok pattern') :
    readBits site (digits ++ digits') base = .ok (pattern ++ pattern') := by
  obtain ⟨⟨hbase, hdigits⟩, rfl⟩ := readBits_eq_ok_iff.mp h
  obtain ⟨⟨-, hdigits'⟩, rfl⟩ := readBits_eq_ok_iff.mp h'
  refine readBits_eq_ok_iff.mpr ⟨⟨hbase, ?_⟩, ?_⟩
  · rw [String.toList_append]
    exact List.forall_mem_append.mpr ⟨hdigits, hdigits'⟩
  · rw [String.toList_append]
    exact List.flatMap_append.symm

end Read

end Literal

/-- The type of two bit strings put together is that of their concatenation, if there is one. -/
theorem Dyadic.concatenation_bits {pattern pattern' : List Bool}
    (h : pattern.length + pattern'.length < precisionLimit) :
    concatenation (Constant.bits pattern 0).ty (Constant.bits pattern' 0).ty =
      .ok (Constant.bits (pattern ++ pattern') 0).ty := by
  have hlength : (pattern ++ pattern').length = pattern.length + pattern'.length :=
    List.length_append
  simp only [Constant.ty, hlength]
  rw [Nat.mod_eq_of_lt h, Nat.mod_eq_of_lt (by omega), Nat.mod_eq_of_lt (by omega)]
  exact concatenation_bit h

namespace Literal

open Text

/-- A bit string can be read exactly if its digits take one to four bits each and stand for values
of that many bits. The pattern has the bits of all digits, denotes the same number as the digits,
and cut into groups it has the digits again, in upper case. A string that goes on with more digits
has a pattern that goes on with theirs, and the type of the concatenation. Anything else is out of
range. -/
theorem readBits_exact (site : LiteralSite) (digits : String) (base : Nat) :
    (IsBitString digits base → ∃ pattern, readBits site digits base = .ok pattern ∧
      pattern.length = base * digits.length ∧
      bitsValue pattern = valueIn (2 ^ base) (digits.toList.map digitValue) ∧
      (cut base pattern).map (fun group => hexDigits[bitsValue group]?) =
        digits.toList.map (fun c => some c.toUpper) ∧
      ∀ site' digits' pattern', readBits site' digits' base = .ok pattern' →
        readBits site (digits ++ digits') base = .ok (pattern ++ pattern') ∧
          (pattern.length + pattern'.length < precisionLimit → ∀ ratio,
            Dyadic.cat.result ratio (Constant.bits pattern 0).ty (Constant.bits pattern' 0).ty =
              .ok (Constant.bits (pattern ++ pattern') 0).ty)) ∧
    (¬IsBitString digits base → readBits site digits base = .error site.outOfRange) := by
  refine ⟨fun h => ?_, readBits_of_not_isBitString⟩
  have hread : readBits site digits base = .ok (expand base digits.toList) :=
    readBits_eq_ok_iff.mpr ⟨h, rfl⟩
  obtain ⟨⟨hbase, -⟩, hdigits⟩ := h
  refine ⟨_, hread, ?_, bitsValue_expand hdigits, map_cut_expand hbase hdigits, ?_⟩
  · rw [length_expand, String.length_toList]
  · intro site' digits' pattern' hread'
    exact ⟨readBits_append hread hread', fun hlength _ => Dyadic.concatenation_bits hlength⟩

/-- Letters of both cases are read, and a digit that takes two bits is out of range where one bit is
asked for. -/
theorem readBits_exact_letters :
    let site : LiteralSite := ⟨.unknown, "'a1'B4"⟩
    let low : List Bool := [false, false, false, false, true, true, true, true]
    IsBitString "a1" 4 ∧ (∃ pattern, readBits site "a1" 4 = .ok pattern ∧ bitsValue pattern = 0xA1 ∧
      readBits site ("a1" ++ "0F") 4 = .ok (pattern ++ low)) ∧
      ¬IsBitString "2" 1 ∧ readBits site "2" 1 = .error site.outOfRange := by
  intro site low
  have hletters : IsBitString "a1" 4 := by decide +kernel
  have hlarge : ¬IsBitString "2" 1 := by decide +kernel
  obtain ⟨pattern, hread, -, hvalue, -, happend⟩ := (readBits_exact site "a1" 4).1 hletters
  refine ⟨hletters, ⟨pattern, hread, ?_, ?_⟩, hlarge, (readBits_exact site "2" 1).2 hlarge⟩
  · rw [hvalue]
    decide +kernel
  · exact (happend site "0F" low (by decide +kernel)).1

/-- Bit strings in any two bases are the same constant exactly if they have the same number of bits
and denote the same number. -/
theorem same_bits_iff {site site' : LiteralSite} {digits digits' : String} {base base' : Nat}
    {pattern pattern' : List Bool} (h : readBits site digits base = .ok pattern)
    (h' : readBits site' digits' base' = .ok pattern') (n n' : Nat) :
    (Constant.bits pattern n).same (Constant.bits pattern' n') = true ↔
      base * digits.length = base' * digits'.length ∧
        valueIn (2 ^ base) (digits.toList.map digitValue) =
          valueIn (2 ^ base') (digits'.toList.map digitValue) := by
  obtain ⟨⟨-, hdigits⟩, rfl⟩ := readBits_eq_ok_iff.mp h
  obtain ⟨⟨-, hdigits'⟩, rfl⟩ := readBits_eq_ok_iff.mp h'
  rw [← bitsValue_expand hdigits, ← bitsValue_expand hdigits', ← String.length_toList,
    ← String.length_toList, ← length_expand, ← length_expand]
  simp only [Constant.same, beq_iff_eq]
  constructor
  · intro heq
    rw [heq]
    exact ⟨rfl, rfl⟩
  · rintro ⟨hlength, hvalue⟩
    exact eq_of_bitsValue_eq hlength hvalue

end Literal

end Pearl
