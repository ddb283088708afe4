import Pearl.Constant.Pool
import Pearl.Proofs.Constant.Same

/-! # Runs of a pool

A pool that began empty, or with 0, 1 and -1, and took in any constants one after the other holds no
value twice and has its bit strings numbered from one without a gap. Constants may come with any
ordinal, and times whose seconds are a not-a-number are taken in anew each time. What adding a
constant can do is said once, in `Added`; the rest follows from that.
-/

namespace Pearl.Pool

/-- Adding `c` to `p` gives an index and a pool. -/
inductive Added (p : Pool) (c : Constant) : Nat → Pool → Prop where
  /-- the first entry of the same value is the one, and nothing changes -/
  | found {i : Nat} {e : Constant} (entry : p.entries[i]? = some e) (same : e.same c = true)
      (first : ∀ j < i, ∀ e', p.entries[j]? = some e' → e'.same c = false) : Added p c i p
  /-- no entry has the value, and the constant becomes the last one -/
  | appended (fresh : ∀ e ∈ p.entries, e.same c = false) :
      Added p c p.entries.length ⟨p.entries ++ [c.numbered (p.bitStrings.length + 1)]⟩

/-- The invariant of a pool. -/
structure Valid (p : Pool) : Prop where
  /-- no entry has the value of an earlier one -/
  distinct : p.entries.Pairwise fun e e' => e.same e' = false
  /-- bit strings are numbered in their order, from one -/
  numbered : ∀ k c, p.bitStrings[k]? = some c → c.ordinal? = some (k + 1)

variable {p q : Pool} {c : Constant}

/-! ## One step -/

theorem add_of_position? {i : Nat} (h : p.position? c = some i) : p.add c = (i, p) := by
  simp only [add, h]

theorem add_of_position?_eq_none (h : p.position? c = none) :
    p.add c = (p.entries.length, ⟨p.entries ++ [c.numbered (p.bitStrings.length + 1)]⟩) := by
  simp only [add, h]

theorem added_add (p : Pool) (c : Constant) : p.Added c (p.add c).1 (p.add c).2 := by
  cases h : p.position? c with
  | some i =>
    rw [add_of_position? h]
    obtain ⟨hi, hs, hfirst⟩ := List.findIdx?_eq_some_iff_getElem.mp h
    refine .found (List.getElem?_eq_getElem hi) hs fun j hj e' he' => ?_
    obtain ⟨hj', rfl⟩ := List.getElem?_eq_some_iff.mp he'
    exact Bool.eq_false_iff.mpr (hfirst j hj)
  | none =>
    rw [add_of_position?_eq_none h]
    exact .appended (List.findIdx?_eq_none_iff.mp h)

@[simp] theorem bitStrings_append (es : List Constant) (n : Nat) (c : Constant) :
    bitStrings ⟨es ++ [c.numbered n]⟩ =
      bitStrings ⟨es⟩ ++ if c.isBits then [c.numbered n] else [] := by
  simp only [bitStrings, List.filter_append]
  congr 1
  cases h : c.isBits <;> simp [h]

/-- Adding a constant keeps the invariant. -/
theorem Added.valid {i : Nat} (h : p.Added c i q) (hp : p.Valid) : q.Valid := by
  cases h with
  | found => exact hp
  | appended fresh =>
    constructor
    · refine List.pairwise_append.mpr ⟨hp.distinct, List.pairwise_singleton _ _, ?_⟩
      intro e he e' he'
      rw [List.mem_singleton.mp he', Constant.same_numbered]
      exact fresh e he
    · intro k c' hk
      rw [bitStrings_append] at hk
      by_cases hlt : k < p.bitStrings.length
      · rw [List.getElem?_append_left hlt] at hk
        exact hp.numbered k c' hk
      · rw [List.getElem?_append_right (Nat.le_of_not_lt hlt)] at hk
        cases hb : c.isBits with
        | false => simp [hb] at hk
        | true =>
          rw [if_pos hb, List.getElem?_singleton] at hk
          split at hk
          · rename_i h0
            have hlen : k = p.bitStrings.length := by omega
            cases hk
            rw [hlen]
            exact Constant.ordinal?_numbered_succ _ hb
          · cases hk

/-! ## Runs -/

theorem valid_empty : empty.Valid := ⟨.nil, fun _ _ h => nomatch h⟩

theorem addAll_append (p : Pool) (cs cs' : List Constant) :
    p.addAll (cs ++ cs') = (p.addAll cs).addAll cs' := List.foldl_append

/-- A run of additions keeps the invariant. -/
theorem Valid.addAll (hp : p.Valid) (cs : List Constant) : (p.addAll cs).Valid := by
  induction cs generalizing p with
  | nil => exact hp
  | cons c cs ih => exact ih ((added_add p c).valid hp)

theorem valid_basic (g : Precision) : (basic g).Valid := valid_empty.addAll _

theorem entries_prefix_addAll (p : Pool) (cs : List Constant) :
    p.entries <+: (p.addAll cs).entries := by
  induction cs generalizing p with
  | nil => exact List.prefix_refl _
  | cons c cs ih => exact (entries_prefix_add p c).trans (ih (p.add c).2)

/-- A position is kept when entries are added. -/
theorem position?_mono {i : Nat} (h : p.entries <+: q.entries) (hi : p.position? c = some i) :
    q.position? c = some i := by
  obtain ⟨rest, hrest⟩ := h
  unfold position? at hi ⊢
  rw [← hrest, List.findIdx?_append, hi]
  rfl

/-- A constant that is the same as itself is found where it was added. -/
theorem position?_add_self (p : Pool) (hc : c.same c = true) :
    (p.add c).2.position? c = some (p.add c).1 := by
  cases h : p.position? c with
  | some i => rw [add_of_position? h, h]
  | none =>
    rw [add_of_position?_eq_none h]
    unfold position? at h ⊢
    rw [List.findIdx?_append, h]
    simp [List.findIdx?_cons, hc]

theorem position?_addAll_add (p : Pool) (hc : c.same c = true) (cs : List Constant) :
    ((p.add c).2.addAll cs).position? c = some (p.add c).1 :=
  position?_mono (entries_prefix_addAll _ cs) (position?_add_self p hc)

/-- A constant that is the same as itself has an entry after it was added, whatever else was. -/
theorem exists_same_of_mem {start : Pool} {cs : List Constant} {c : Constant} (hc : c ∈ cs)
    (hself : c.same c = true) : ∃ e ∈ (start.addAll cs).entries, e.same c = true := by
  obtain ⟨before, after, rfl⟩ := List.append_of_mem hc
  have hpos := position?_addAll_add (start.addAll before) hself after
  have hadd : start.addAll (before ++ c :: after) = ((start.addAll before).add c).2.addAll after :=
    addAll_append start before (c :: after)
  obtain ⟨hlt, hsame, -⟩ := List.findIdx?_eq_some_iff_getElem.mp hpos
  rw [hadd]
  exact ⟨_, List.getElem_mem hlt, hsame⟩

/-- However many constants a pool took in, it is valid, adding one more keeps all entries in their
places and gives the first entry of its value, if there is one, and a constant that is the same as
itself stays where it was added. -/
theorem run_valid_and_stable (start : Pool) (hstart : start = empty ∨ ∃ g, start = basic g)
    (cs : List Constant) (c : Constant) :
    (start.addAll cs).Valid ∧
      (start.addAll cs).entries <+: ((start.addAll cs).add c).2.entries ∧
      (start.addAll cs).Added c ((start.addAll cs).add c).1 ((start.addAll cs).add c).2 ∧
      (c.same c = true → ∀ further : List Constant,
        (((start.addAll cs).add c).2.addAll further).position? c =
            some ((start.addAll cs).add c).1 ∧
          (((start.addAll cs).add c).2.addAll further).add c =
            (((start.addAll cs).add c).1, ((start.addAll cs).add c).2.addAll further)) := by
  have hvalid : start.Valid := by
    rcases hstart with rfl | ⟨g, rfl⟩
    · exact valid_empty
    · exact valid_basic g
  refine ⟨hvalid.addAll cs, entries_prefix_add _ c, added_add _ c, fun hc further => ?_⟩
  have hpos := position?_addAll_add (start.addAll cs) hc further
  exact ⟨hpos, add_of_position? hpos⟩

/-- A bit string that comes with another ordinal is the one already there, and keeps its place after
further additions. -/
theorem run_valid_and_stable_bits :
    ((basic 31).addAll [.bits [true] 7, .char "x", .bits [false] 7]).Valid ∧
      ((((basic 31).addAll [.bits [true] 7, .char "x", .bits [false] 7]).add
        (.bits [true] 9)).2.addAll [.bits [] 3]).position? (.bits [true] 9) = some 3 := by
  obtain ⟨hvalid, -, -, hstable⟩ := run_valid_and_stable (basic 31) (.inr ⟨31, rfl⟩)
    [.bits [true] 7, .char "x", .bits [false] 7] (.bits [true] 9)
  exact ⟨hvalid, (hstable (by decide) [.bits [] 3]).1⟩

end Pearl.Pool
