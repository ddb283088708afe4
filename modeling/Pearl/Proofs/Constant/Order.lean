import Pearl.Proofs.Constant.Run

/-! # Pools and the order of additions

Constants that are added in another order end up in other places, and of two floats that differ in
precision the first one is kept. Up to sameness the pool is the same: sameness is symmetric and
transitive, so that no value is lost and none is there twice, whatever came first.
-/

namespace Pearl

/-! ## Lists without a value twice -/

namespace Constant

variable {e : Constant} {es fs : List Constant}

/-- In a list without a value twice at most one entry has a given value. -/
theorem countP_same_le_one (hdistinct : es.Pairwise fun c d => c.same d = false) (e : Constant) :
    es.countP (e.same ·) ≤ 1 := by
  induction hdistinct with
  | nil => exact Nat.zero_le 1
  | @cons c cs hc _ ih =>
    rw [List.countP_cons]
    split
    · rename_i hec
      have hnone : cs.countP (e.same ·) = 0 := by
        rw [List.countP_eq_zero]
        intro d hd hed
        have hcd := same_trans (same_symm hec) hed
        rw [hc d hd] at hcd
        cases hcd
      omega
    · exact ih

theorem countP_same_eq_one (hdistinct : es.Pairwise fun c d => c.same d = false)
    (h : ∃ d ∈ es, e.same d = true) : es.countP (e.same ·) = 1 := by
  have hpos : 0 < es.countP (e.same ·) := List.countP_pos_iff.mpr h
  have hle := countP_same_le_one hdistinct e
  omega

/-- A list without a value twice is no longer than one that has all of its values: an entry there
stands for one value at most. -/
theorem length_le_of_same (hdistinct : es.Pairwise fun c d => c.same d = false)
    (h : ∀ e ∈ es, ∃ f ∈ fs, e.same f = true) : es.length ≤ fs.length := by
  induction hdistinct generalizing fs with
  | nil => exact Nat.zero_le _
  | @cons c cs hc _ ih =>
    obtain ⟨⟨f, hf, hcf⟩, hrest⟩ := List.forall_mem_cons.mp h
    obtain ⟨before, after, rfl⟩ := List.append_of_mem hf
    have hshorter : cs.length ≤ (before ++ after).length := by
      apply ih
      intro d hd
      obtain ⟨g, hg, hdg⟩ := hrest d hd
      refine ⟨g, ?_, hdg⟩
      have hne : g ≠ f := by
        rintro rfl
        have hcd := same_trans hcf (same_symm hdg)
        rw [hc d hd] at hcd
        cases hcd
      simpa [hne] using hg
    simp only [List.length_cons, List.length_append] at hshorter ⊢
    omega

end Constant

namespace Pool

variable {p q start : Pool} {c : Constant} {cs cs' : List Constant}

/-! ## What is in a pool -/

theorem mem_entries_add {e : Constant} (h : e ∈ (p.add c).2.entries) :
    e ∈ p.entries ∨ ∃ n, e = c.numbered n := by
  have hadded := added_add p c
  generalize (p.add c).1 = i, (p.add c).2 = q at h hadded
  cases hadded with
  | found => exact .inl h
  | appended =>
    rcases List.mem_append.mp h with h | h
    · exact .inl h
    · exact .inr ⟨_, List.mem_singleton.mp h⟩

/-- An entry was there at the start or is one of the constants that were added, maybe numbered. -/
theorem mem_entries_addAll {e : Constant} (h : e ∈ (start.addAll cs).entries) :
    e ∈ start.entries ∨ ∃ c ∈ cs, ∃ n, e = c.numbered n := by
  induction cs generalizing start with
  | nil => exact .inl h
  | cons c cs ih =>
    rcases ih h with h | ⟨d, hd, hn⟩
    · rcases mem_entries_add h with h | hn
      · exact .inl h
      · exact .inr ⟨c, List.mem_cons_self .., hn⟩
    · exact .inr ⟨d, List.mem_cons_of_mem c hd, hn⟩

/-! ## Pools that match -/

/-- Two pools are of the same length, and each entry has the value of exactly one entry of the
other. -/
structure Matches (p q : Pool) : Prop where
  length : p.entries.length = q.entries.length
  forward : ∀ e ∈ p.entries, q.entries.countP (e.same ·) = 1
  backward : ∀ e ∈ q.entries, p.entries.countP (e.same ·) = 1

/-- Pools that have no value twice match if each has all values of the other. -/
theorem matches_of_same (hp : p.Valid) (hq : q.Valid)
    (hpq : ∀ e ∈ p.entries, ∃ f ∈ q.entries, e.same f = true)
    (hqp : ∀ e ∈ q.entries, ∃ f ∈ p.entries, e.same f = true) : p.Matches q where
  length := Nat.le_antisymm (Constant.length_le_of_same hp.distinct hpq)
    (Constant.length_le_of_same hq.distinct hqp)
  forward e he := Constant.countP_same_eq_one hq.distinct (hpq e he)
  backward e he := Constant.countP_same_eq_one hp.distinct (hqp e he)

/-- A pool has the values of the start and of all constants that were added in any order. -/
theorem exists_same_of_subset (hstart : ∀ e ∈ start.entries, e.same e = true)
    (hcs : ∀ c ∈ cs, c.same c = true) (hsub : cs ⊆ cs') :
    ∀ e ∈ (start.addAll cs).entries, ∃ f ∈ (start.addAll cs').entries, e.same f = true := by
  intro e he
  rcases mem_entries_addAll he with he | ⟨c, hc, n, rfl⟩
  · exact ⟨e, (entries_prefix_addAll start cs').subset he, hstart e he⟩
  · obtain ⟨f, hf, hfc⟩ : ∃ f ∈ (start.addAll cs').entries, f.same c = true :=
      exists_same_of_mem (hsub hc) (hcs c hc)
    refine ⟨f, hf, ?_⟩
    rw [Constant.numbered_same]
    exact Constant.same_symm hfc

/-- Up to sameness a pool does not depend on the order in which constants are added. -/
theorem matches_of_perm (hvalid : start.Valid) (hstart : ∀ e ∈ start.entries, e.same e = true)
    (hcs : ∀ c ∈ cs, c.same c = true) (hperm : cs.Perm cs') :
    (start.addAll cs).Matches (start.addAll cs') :=
  matches_of_same (hvalid.addAll cs) (hvalid.addAll cs')
    (exists_same_of_subset hstart hcs hperm.subset)
    (exists_same_of_subset hstart (fun c hc => hcs c (hperm.mem_iff.mpr hc)) hperm.symm.subset)

end Pool

end Pearl
