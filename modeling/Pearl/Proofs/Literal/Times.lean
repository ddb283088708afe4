import Mathlib.Algebra.Order.Field.Power
import Mathlib.Data.Rat.Cast.Order
import Pearl.Proofs.Literal.Faults
import Pearl.Proofs.Text.Numeral

/-! # Literals of times

A duration and a clock time are accepted exactly if each of their parts is, and hold the numbers of
these. The parts are read in the order of hours, minutes and seconds, and the first that is not
accepted decides the fault: a number out of range if its text is not that of a number, and a value
out of bounds if it is.
-/

namespace Pearl

/-! ## Values of finite numbers -/

namespace Binary64

/-- The number that a finite value stands for. -/
def value (x : Binary64) : ℚ := (if x.isMinus then -1 else 1) * x.mantissa * 2 ^ x.scale

variable {x : Binary64}

theorem mantissa_eq_zero_iff : x.mantissa = 0 ↔ x.isZero = true := by
  unfold mantissa isZero
  split <;> simp_all

/-- Neither zero is below zero. -/
theorem isBelowZero_iff (h : x.isFinite = true) : x.isBelowZero = true ↔ x.value < 0 := by
  have hnan : x.isNaN = false := by
    unfold isNaN
    unfold isFinite at h
    simp_all
  have hbelow : x.isBelowZero = true ↔ x.isMinus = true ∧ 0 < x.mantissa := by
    rw [Nat.pos_iff_ne_zero, Ne, mantissa_eq_zero_iff, isBelowZero, hnan]
    simp
  have hscale : (0 : ℚ) < 2 ^ x.scale := zpow_pos two_pos _
  rw [hbelow, value]
  cases x.isMinus with
  | true =>
    rw [if_pos rfl, neg_one_mul, neg_mul, neg_lt_zero, mul_pos_iff_of_pos_right hscale,
      Nat.cast_pos, and_iff_right rfl]
  | false =>
    refine iff_of_false (fun hminus => Bool.false_ne_true hminus.1) (not_lt.mpr ?_)
    rw [if_neg Bool.false_ne_true, one_mul]
    exact mul_nonneg (Nat.cast_nonneg _) hscale.le

end Binary64

/-! ## Parts -/

/-- The text of one part of a time. -/
inductive TimePart where
  | hours (text : String)
  | minutes (text : String)
  | seconds (text : String)
deriving DecidableEq, Repr

/-- The text is that of a word that is not negative. -/
def Text.SpellsNatural (text : String) (n : Nat) : Prop := SpellsWord text n

/-- Without the blanks around it, the text is read as the finite value. -/
def Text.SpellsFinite (text : String) (x : Binary64) : Prop :=
  Binary64.read? (trimBlanks text.toList) = some x ∧ x.isFinite = true

open Text

namespace TimePart

/-- The text is that of a number. -/
def IsNumber : TimePart → Prop
  | .hours text | .minutes text => ∃ v, SpellsWord text v
  | .seconds text => ∃ x, SpellsFinite text x

/-- The text is that of a number with a place in a time. -/
def InRange : TimePart → Prop
  | .hours text => ∃ v, SpellsWord text v ∧ 0 ≤ v
  | .minutes text => ∃ v, SpellsWord text v ∧ 0 ≤ v ∧ v ≤ 59
  | .seconds text => ∃ x, SpellsFinite text x ∧ 0 ≤ x.value

/-- What there is to complain of about a part that is not accepted. -/
def Deserves (p : TimePart) : Complaint → Prop
  | .numberOutOfRange => ¬p.IsNumber
  | .valueOutOfBounds => p.IsNumber ∧ ¬p.InRange
  | _ => False

end TimePart

namespace Literal

def isTime : Literal → Bool
  | .duration .. | .clock .. => true
  | _ => false

/-- The parts that are given, in the order in which they are read. -/
def partsOf (h m s : Option String) : List TimePart :=
  (h.map .hours).toList ++ (m.map .minutes).toList ++ (s.map .seconds).toList

/-- The parts of a time. A clock time has all three. -/
def timeParts : Literal → List TimePart
  | .duration h m s => partsOf h m s
  | .clock h m s => partsOf (some h) (some m) (some s)
  | _ => []

/-- A part that is given has the number, and one that is not has the number zero. -/
def Given {α : Type} (Spells : String → α → Prop) (zero : α) (part : Option String) (a : α) :
    Prop :=
  part.elim (a = zero) (Spells · a)

/-- The constant holds the numbers of the parts. A clock shows its hours modulo a day. -/
def Tells : Literal → Constant → Prop
  | .duration h m s, c => ∃ (h' m' : Nat) (s' : Binary64), c = .duration h' m' s' ∧
    Given SpellsNatural 0 h h' ∧ Given SpellsNatural 0 m m' ∧ Given SpellsFinite .zero s s'
  | .clock h m s, c => ∃ (h' m' : Nat) (s' : Binary64), c = .clock (h' % 24) m' s' ∧
    SpellsNatural h h' ∧ SpellsNatural m m' ∧ SpellsFinite s s'
  | _, _ => False

end Literal

theorem Text.SpellsWord.unique {text : String} {v w : Int} (h : SpellsWord text v)
    (h' : SpellsWord text w) : v = w := by
  rw [← word?_trimBlanks_eq_some_iff] at h h'
  exact Option.some.inj (h.symm.trans h')

theorem Text.SpellsNatural.unique {text : String} {n k : Nat} (h : SpellsNatural text n)
    (h' : SpellsNatural text k) : n = k :=
  Int.ofNat_inj.mp (SpellsWord.unique h h')

theorem Text.SpellsFinite.unique {text : String} {x y : Binary64} (h : SpellsFinite text x)
    (h' : SpellsFinite text y) : x = y :=
  Option.some.inj (h.1.symm.trans h'.1)

/-! ## Readers of parts -/

namespace Literal

variable {site : LiteralSite} {text : String}

theorem readFixed_eq_ok_iff (site : LiteralSite) {v : Int} :
    readFixed site text = .ok v ↔ SpellsWord text v := by
  rw [← word?_trimBlanks_eq_some_iff, readFixed]
  cases word? (trimBlanks text.toList) <;> simp

theorem readFloat_eq_ok_iff (site : LiteralSite) {x : Binary64} :
    readFloat site text = .ok x ↔ SpellsFinite text x := by
  unfold readFloat SpellsFinite
  cases Binary64.read? (trimBlanks text.toList) with
  | none => simp
  | some y =>
    dsimp only
    by_cases hy : y.isFinite = true
    · rw [if_pos hy, Except.ok.injEq, Option.some.injEq]
      exact ⟨fun heq => ⟨heq, heq ▸ hy⟩, And.left⟩
    · rw [if_neg hy]
      refine iff_of_false (by simp) ?_
      rintro ⟨⟨⟩, hx⟩
      exact hy hx

section Checked

variable {α β : Type} {number : Except Diagnostic α} {Fits : α → Prop} [DecidablePred Fits]
  {f : α → β}

/-- A number that is read and then checked. -/
theorem checked_eq_ok_iff {d : Diagnostic} {b : β} :
    (number >>= fun a => if Fits a then .ok (f a) else .error d) = .ok b ↔
      ∃ a, number = .ok a ∧ Fits a ∧ f a = b := by
  rw [bind_eq_ok]
  refine exists_congr fun a => and_congr_right fun _ => ?_
  split <;> simp_all

theorem exists_checked_eq_ok_iff {d : Diagnostic} :
    (∃ b, (number >>= fun a => if Fits a then .ok (f a) else .error d) = .ok b) ↔
      ∃ a, number = .ok a ∧ Fits a := by
  simp only [checked_eq_ok_iff]
  exact ⟨fun ⟨b, a, ha, hfits, _⟩ => ⟨a, ha, hfits⟩, fun ⟨a, ha, hfits⟩ => ⟨f a, a, ha, hfits, rfl⟩⟩

theorem checked_eq_error_iff {range bounds d : Diagnostic}
    (h : ∀ d, number = .error d → d = range) :
    (number >>= fun a => if Fits a then .ok (f a) else .error bounds) = .error d ↔
      (¬∃ a, number = .ok a) ∧ d = range ∨
        ((∃ a, number = .ok a) ∧ ¬∃ a, number = .ok a ∧ Fits a) ∧ d = bounds := by
  cases number with
  | error e =>
    obtain rfl := h e rfl
    simp [bind, Except.bind, eq_comm]
  | ok a =>
    simp only [bind, Except.bind]
    split <;> simp_all [eq_comm]

end Checked

theorem outOfRange_of_readFixed {d : Diagnostic} (h : readFixed site text = .error d) :
    d = site.outOfRange := by
  unfold readFixed at h
  split at h <;> cases h
  rfl

theorem outOfRange_of_readFloat {d : Diagnostic} (h : readFloat site text = .error d) :
    d = site.outOfRange := by
  unfold readFloat at h
  split at h
  · split at h <;> cases h
    rfl
  · cases h
    rfl

/-- What is read is finite, and so has a value that can be compared. -/
theorem readSeconds_eq (site : LiteralSite) (text : String) : readSeconds site text =
    readFloat site text >>= fun x => if 0 ≤ x.value then .ok x else .error site.outOfBounds := by
  unfold readSeconds
  cases h : readFloat site text with
  | error d => rfl
  | ok x =>
    have hbelow := Binary64.isBelowZero_iff ((readFloat_eq_ok_iff site).mp h).2
    show (if x.isBelowZero = true then _ else _) = if 0 ≤ x.value then _ else _
    simp only [hbelow, ← not_lt, ite_not]
    rfl

theorem readHours_eq_ok_iff {n : Nat} : readHours site text = .ok n ↔ SpellsNatural text n := by
  refine checked_eq_ok_iff.trans ?_
  simp only [readFixed_eq_ok_iff]
  constructor
  · rintro ⟨v, hv, hpos, rfl⟩
    rwa [SpellsNatural, Int.toNat_of_nonneg hpos]
  · exact fun h => ⟨n, h, Int.natCast_nonneg n, Int.toNat_natCast n⟩

theorem readMinutes_eq_ok_iff {n : Nat} :
    readMinutes site text = .ok n ↔ SpellsNatural text n ∧ n ≤ 59 := by
  refine checked_eq_ok_iff.trans ?_
  simp only [readFixed_eq_ok_iff]
  constructor
  · rintro ⟨v, hv, ⟨hpos, hle⟩, rfl⟩
    rw [SpellsNatural, Int.toNat_of_nonneg hpos]
    exact ⟨hv, by omega⟩
  · exact fun ⟨h, hle⟩ => ⟨n, h, ⟨Int.natCast_nonneg n, by omega⟩, Int.toNat_natCast n⟩

theorem readSeconds_eq_ok_iff {x : Binary64} :
    readSeconds site text = .ok x ↔ SpellsFinite text x ∧ 0 ≤ x.value := by
  rw [readSeconds_eq, checked_eq_ok_iff]
  simp only [readFloat_eq_ok_iff]
  constructor
  · rintro ⟨x, hx, hpos, rfl⟩
    exact ⟨hx, hpos⟩
  · exact fun ⟨hx, hpos⟩ => ⟨x, hx, hpos, rfl⟩

end Literal

namespace TimePart

open Literal

variable (site : LiteralSite)

/-- Whether a part is accepted, and else the fault. -/
def read : TimePart → Except Diagnostic Unit
  | .hours text => (readHours site text).map fun _ => ()
  | .minutes text => (readMinutes site text).map fun _ => ()
  | .seconds text => (readSeconds site text).map fun _ => ()

variable {site} {p : TimePart} {d : Diagnostic}

variable (site) in
theorem read_eq_ok_iff : p.read site = .ok () ↔ p.InRange := by
  cases p with
  | hours text | minutes text =>
    simp only [read, map_eq_ok, and_true, InRange, ← readFixed_eq_ok_iff site]
    exact exists_checked_eq_ok_iff
  | seconds text =>
    simp only [read, map_eq_ok, and_true, InRange, ← readFloat_eq_ok_iff site, readSeconds_eq]
    exact exists_checked_eq_ok_iff

theorem exists_deserves_iff : (∃ k, p.Deserves k ∧ d = ⟨k, site.location, site.text⟩) ↔
    ¬p.IsNumber ∧ d = site.outOfRange ∨ (p.IsNumber ∧ ¬p.InRange) ∧ d = site.outOfBounds := by
  constructor
  · rintro ⟨k, hk, rfl⟩
    cases k with
    | numberOutOfRange => exact .inl ⟨hk, rfl⟩
    | valueOutOfBounds => exact .inr ⟨hk, rfl⟩
    | _ => cases hk
  · rintro (⟨h, rfl⟩ | ⟨h, rfl⟩)
    · exact ⟨.numberOutOfRange, h, rfl⟩
    · exact ⟨.valueOutOfBounds, h, rfl⟩

theorem read_eq_error_iff :
    p.read site = .error d ↔ ∃ k, p.Deserves k ∧ d = ⟨k, site.location, site.text⟩ := by
  rw [exists_deserves_iff]
  cases p with
  | hours text | minutes text =>
    simp only [read, map_eq_error, IsNumber, InRange, ← readFixed_eq_ok_iff site]
    exact checked_eq_error_iff fun d => outOfRange_of_readFixed
  | seconds text =>
    simp only [read, map_eq_error, IsNumber, InRange, ← readFloat_eq_ok_iff site, readSeconds_eq]
    exact checked_eq_error_iff fun d => outOfRange_of_readFloat

variable (site) in
/-- Whether all parts of a row are accepted, and else the fault of the first that is not. -/
def readAll (ps : List TimePart) : Except Diagnostic Unit :=
  (inTurn (fun p s => (p.read site, s)) ps ()).1

theorem readAll_append (ps qs : List TimePart) :
    readAll site (ps ++ qs) = readAll site ps >>= fun _ => readAll site qs := by
  unfold readAll
  rw [inTurn_append]
  generalize inTurn (fun p s => (p.read site, s)) ps () = done
  obtain ⟨outcome, s⟩ := done
  cases outcome <;> rfl

variable (site) in
theorem readAll_eq_ok_iff {ps : List TimePart} :
    readAll site ps = .ok () ↔ ∀ p ∈ ps, p.InRange := by
  have hrow := inTurn_eq_ok_iff (read site) (fun _ => id)
    (fun (p : TimePart) (_ : p ∈ ps) (s : Unit) => (rfl : (p.read site, s).1 = _))
    (fun _ _ _ _ => rfl) () ()
  simp only [Prod.ext_iff, and_true, read_eq_ok_iff] at hrow
  exact hrow

theorem readAll_eq_error_iff {ps : List TimePart} : readAll site ps = .error d ↔
    ∃ before p after, ps = before ++ p :: after ∧ (∀ q ∈ before, q.InRange) ∧
      ∃ k, p.Deserves k ∧ d = ⟨k, site.location, site.text⟩ := by
  have hrow := inTurn_eq_error_iff (read site) (fun (p : TimePart) (_ : p ∈ ps) (s : Unit) =>
    (rfl : (p.read site, s).1 = _)) () d
  simp only [read_eq_ok_iff, read_eq_error_iff] at hrow
  exact hrow

end TimePart

/-! ## Times -/

namespace Literal

open TimePart

variable {site : LiteralSite}

/-- Two steps are good or bad as the first is, and then as the second is, whatever it is given. -/
theorem map_bind_of_forall {α β : Type} {x : Except Diagnostic α} {f : α → Except Diagnostic β}
    {r : Except Diagnostic Unit} (h : ∀ a, (f a).map (fun _ => ()) = r) :
    (x >>= f).map (fun _ => ()) = x.map (fun _ => ()) >>= fun _ => r := by
  cases x with
  | error d => rfl
  | ok a => exact h a

theorem map_readPart {α : Type} {reader : String → Except Diagnostic α} {form : String → TimePart}
    (h : ∀ text, (reader text).map (fun _ => ()) = (form text).read site) (absent : α)
    (part : Option String) :
    (readPart reader absent part).map (fun _ => ()) = readAll site (part.map form).toList := by
  cases part with
  | none => rfl
  | some text =>
    refine (h text).trans ?_
    unfold readAll
    rw [Option.map_some, Option.toList_some, inTurn_singleton]

section Given

variable {α : Type} {reader : String → Except Diagnostic α} {S : String → α → Prop} {zero a b : α}
  {part : Option String}

theorem given_of_readPart (hreader : ∀ text a, reader text = .ok a → S text a)
    (h : readPart reader zero part = .ok a) : Given S zero part a := by
  cases part with
  | none => exact (Except.ok.inj h).symm
  | some text => exact hreader text a h

theorem Given.unique (hS : ∀ text a b, S text a → S text b → a = b)
    (h : Given S zero part a) (h' : Given S zero part b) : a = b := by
  cases part with
  | none => exact Eq.trans h h'.symm
  | some text => exact hS text a b h h'

end Given

section ReadTime

variable (site) (f : Nat → Nat → Binary64 → Constant) (h m s : Option String)

/-- Read the parts of a time and put their numbers together. -/
def readTime : Except Diagnostic Constant := do
  let h ← readPart (readHours site) 0 h
  let m ← readPart (readMinutes site) 0 m
  let s ← readPart (readSeconds site) .zero s
  pure (f h m s)

theorem map_readTime : (readTime site f h m s).map (fun _ => ()) =
    readAll site (partsOf h m s) := by
  have hh : _ = readAll site (h.map .hours).toList := map_readPart (fun _ => rfl) 0 h
  have hm : _ = readAll site (m.map .minutes).toList := map_readPart (fun _ => rfl) 0 m
  have hs : _ = readAll site (s.map .seconds).toList := map_readPart (fun _ => rfl) .zero s
  rw [partsOf, List.append_assoc, readAll_append, readAll_append, ← hh, ← hm, ← hs]
  refine map_bind_of_forall fun _ => map_bind_of_forall fun _ => ?_
  cases readPart (readSeconds site) .zero s <;> rfl

/-- A time is accepted just if all of its parts are. -/
theorem exists_readTime_iff :
    (∃ c, readTime site f h m s = .ok c) ↔ ∀ p ∈ partsOf h m s, p.InRange := by
  rw [← readAll_eq_ok_iff site, ← map_readTime site f, map_eq_ok]
  simp only [and_true]

variable {site f h m s}

theorem numbers_of_readTime {c : Constant} (hc : readTime site f h m s = .ok c) :
    ∃ h' m' s', c = f h' m' s' ∧ Given SpellsNatural 0 h h' ∧ Given SpellsNatural 0 m m' ∧
      Given SpellsFinite .zero s s' := by
  obtain ⟨h', hh, hc⟩ := bind_eq_ok.mp hc
  obtain ⟨m', hm, hc⟩ := bind_eq_ok.mp hc
  obtain ⟨s', hs, hc⟩ := bind_eq_ok.mp hc
  refine ⟨h', m', s', (Except.ok.inj hc).symm, ?_, ?_, ?_⟩
  · exact given_of_readPart (fun _ _ => readHours_eq_ok_iff.mp) hh
  · exact given_of_readPart (fun _ _ hn => (readMinutes_eq_ok_iff.mp hn).1) hm
  · exact given_of_readPart (fun _ _ hx => (readSeconds_eq_ok_iff.mp hx).1) hs

theorem readTime_eq_ok_iff {c : Constant} : readTime site f h m s = .ok c ↔
    (∀ p ∈ partsOf h m s, p.InRange) ∧ ∃ h' m' s', c = f h' m' s' ∧ Given SpellsNatural 0 h h' ∧
      Given SpellsNatural 0 m m' ∧ Given SpellsFinite .zero s s' := by
  constructor
  · exact fun hc => ⟨(exists_readTime_iff site f h m s).mp ⟨c, hc⟩, numbers_of_readTime hc⟩
  · rintro ⟨hrange, h₁, m₁, s₁, rfl, hh, hm, hs⟩
    obtain ⟨c, hc⟩ := (exists_readTime_iff site f h m s).mpr hrange
    obtain ⟨h₂, m₂, s₂, rfl, hh', hm', hs'⟩ := numbers_of_readTime hc
    obtain rfl := Given.unique (S := SpellsNatural) (fun _ _ _ => SpellsNatural.unique) hh hh'
    obtain rfl := Given.unique (S := SpellsNatural) (fun _ _ _ => SpellsNatural.unique) hm hm'
    obtain rfl := Given.unique (S := SpellsFinite) (fun _ _ _ => SpellsFinite.unique) hs hs'
    exact hc

end ReadTime

/-- A duration or a clock time is accepted exactly if each part that is given is the text of a
number in its range: hours and minutes are words, of which the hours are not negative and the
minutes at most 59, and seconds are finite and not below zero. The constant then holds these
numbers, zero for a part that is not given, and the hours of a clock modulo a day. Otherwise the
first bad part, in the order of hours, minutes and seconds, decides the complaint, which has the
location and the text of the literal. -/
theorem denote_time_exact (site : LiteralSite) (defaults : Precisions) (value : Literal)
    (htime : value.isTime = true) :
    ((∃ c, value.denote site defaults = .ok c) ↔ ∀ p ∈ value.timeParts, p.InRange) ∧
      (∀ c, value.denote site defaults = .ok c ↔
        (∀ p ∈ value.timeParts, p.InRange) ∧ value.Tells c) ∧
      ∀ d, value.denote site defaults = .error d ↔
        ∃ before p after, value.timeParts = before ++ p :: after ∧ (∀ q ∈ before, q.InRange) ∧
          ∃ k, p.Deserves k ∧ d = ⟨k, site.location, site.text⟩ := by
  have hread (f : Nat → Nat → Binary64 → Constant) (h m s : Option String) (d : Diagnostic) :
      readTime site f h m s = .error d ↔ readAll site (partsOf h m s) = .error d := by
    rw [← map_readTime site f, map_eq_error]
  cases value with
  | duration h m s =>
    refine ⟨exists_readTime_iff site .duration h m s, fun c => readTime_eq_ok_iff, fun d => ?_⟩
    exact (hread .duration h m s d).trans readAll_eq_error_iff
  | clock h m s =>
    let f (h m : Nat) (s : Binary64) : Constant := .clock (h % 24) m s
    refine ⟨exists_readTime_iff site f (some h) (some m) (some s),
      fun c => readTime_eq_ok_iff (f := f) (h := some h) (m := some m) (s := some s), fun d => ?_⟩
    exact (hread f (some h) (some m) (some s) d).trans readAll_eq_error_iff
  | _ => cases htime

/-- The hours of a clock go round, and blanks around a number do not count. Hours below zero are a
fault before minutes that are no number. -/
theorem denote_time_exact_sample :
    let clock : Literal := .clock "+25" " 07 " "0.5"
    let duration : Literal := .duration (some "-1") (some "x") none
    (clock.isTime = true ∧ (∀ p ∈ clock.timeParts, p.InRange) ∧
        clock.Tells (.clock 1 7 ⟨0x3FE0000000000000⟩)) ∧
      duration.isTime = true ∧ ∃ before p after, duration.timeParts = before ++ p :: after ∧
        (∀ q ∈ before, q.InRange) ∧ ∃ k, p.Deserves k ∧
          (⟨.valueOutOfBounds, .unknown, "-1 HRS x MIN"⟩ : Diagnostic) =
            ⟨k, .unknown, "-1 HRS x MIN"⟩ := by
  intro clock duration
  have hclock := denote_time_exact ⟨.unknown, ""⟩ ⟨31, 24⟩ clock rfl
  have hduration := denote_time_exact ⟨.unknown, "-1 HRS x MIN"⟩ ⟨31, 24⟩ duration rfl
  exact ⟨⟨rfl, (hclock.2.1 _).mp rfl⟩, rfl, (hduration.2.2 _).mp rfl⟩

end Literal

end Pearl
