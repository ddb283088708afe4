import Pearl.Proofs.Typing.Domain

/-! # What names are typed as

A name that has a type stands for a variable or for a procedure with a result. Which one that is
depends on the table and the scope alone. An entry for a name is what some part of the expression
was typed as that has the id of the name, so that it tells what the name stands for.
-/

namespace Pearl

namespace SymbolTable

variable (t : SymbolTable) (scope : ScopeId) (ident : String)

/-- Seen from the scope, the name stands for a variable, which may be guarded against assignment. -/
structure NamesVariable (id : SymbolId) (ty : Ty) (inv : Bool) : Prop where
  lookup : t.lookup scope ident = some id
  kind : (t.symbol? id).map Symbol.kind = some (.variable ty inv)

/-- Seen from the scope, the name stands for a procedure with a result. -/
def NamesFunction (ty : Ty) : Prop :=
  ∃ id inner, t.lookup scope ident = some id ∧
    (t.symbol? id).map Symbol.kind = some (.procedure inner (some ty))

variable {t scope ident} {id id' : SymbolId} {ty ty' : Ty} {inv inv' : Bool}

/-- A name stands for one variable at most. -/
theorem NamesVariable.unique (h : t.NamesVariable scope ident id ty inv)
    (h' : t.NamesVariable scope ident id' ty' inv') : id = id' ∧ ty = ty' ∧ inv = inv' := by
  obtain rfl : id = id' := Option.some.inj (h.lookup.symm.trans h'.lookup)
  have hkind := Option.some.inj (h.kind.symm.trans h'.kind)
  exact ⟨rfl, SymbolKind.variable.inj hkind⟩

/-- A procedure is no variable. -/
theorem NamesFunction.not_namesVariable (h : t.NamesFunction scope ident ty) :
    ¬t.NamesVariable scope ident id' ty' inv' := by
  rintro ⟨hlookup, hkind⟩
  obtain ⟨id, inner, hid, hprocedure⟩ := h
  obtain rfl : id = id' := Option.some.inj (hid.symm.trans hlookup)
  cases hprocedure.symm.trans hkind

end SymbolTable

namespace Judgement

variable {j : Judgement} {k : Typing → Judgement} {id : ExprId} {outcome : Except Halt Typing}
  {e : ExprId × Typing}

theorem eq_of_mem_conclude (he : e ∈ (conclude id outcome).log) :
    id = e.1 ∧ (conclude id outcome).outcome = .ok e.2 := by
  cases outcome with
  | error halt => cases he
  | ok r =>
    cases List.mem_singleton.mp he
    exact ⟨rfl, rfl⟩

/-- An entry of two judgements in a row is made by the first, or by the second, which then has the
outcome. -/
theorem mem_andThen (he : e ∈ (j.andThen k).log) :
    e ∈ j.log ∨ ∃ r, j.outcome = .ok r ∧ e ∈ (k r).log ∧ (j.andThen k).outcome = (k r).outcome := by
  unfold andThen at he ⊢
  cases hj : j.outcome with
  | error halt =>
    rw [hj] at he
    exact .inl he
  | ok r =>
    rw [hj] at he
    exact (List.mem_append.mp he).imp_right fun he => ⟨r, rfl, he, rfl⟩

end Judgement

namespace TypingTable

/-- The typing of a name tells what it stands for. -/
theorem judgeName_cases {c : Context} {site : ExprSite} {ident : String} {r : Typing}
    (h : judgeName c site ident = .ok r) :
    (∃ id ty inv, c.table.NamesVariable c.scope ident id ty inv ∧
      r = ⟨elementTy ty, inv, some id⟩) ∨
      ∃ ty, c.table.NamesFunction c.scope ident ty ∧ r = .runtime ty := by
  unfold judgeName at h
  split at h
  · cases h
  · next id hid =>
    split at h
    · cases h
    · next s hs =>
      cases h
      obtain ⟨symbol, hsymbol, htyping⟩ := Option.bind_eq_some_iff.mp hs
      have hkind : (c.table.symbol? id).map Symbol.kind = some symbol.kind := by rw [hsymbol]; rfl
      generalize symbol.kind = kind at htyping hkind
      cases kind with
      | «variable» ty inv =>
        cases htyping
        exact .inl ⟨id, ty, inv, ⟨hid, hkind⟩, rfl⟩
      | procedure inner result =>
        cases result with
        | none => cases htyping
        | some ty =>
          cases htyping
          exact .inr ⟨ty, ⟨id, inner, hid, hkind⟩, rfl⟩
      | module | task | semaphore => cases htyping

/-! ## Where entries come from -/

theorem mem_of_get?_insertAll {log : List (ExprId × Typing)} {t : TypingTable} {id : ExprId}
    {r : Typing} (h : (t.insertAll log).get? id = some r) : (id, r) ∈ log ∨ t.get? id = some r := by
  induction log generalizing t with
  | nil => exact .inr h
  | cons e log ih =>
    rcases ih h with hmem | hget
    · exact .inl (List.mem_cons_of_mem _ hmem)
    · by_cases hid : id = e.1
      · rw [hid, get?_insert_self] at hget
        cases hget
        exact .inl (hid ▸ List.mem_cons_self)
      · exact .inr ((get?_insert_of_ne t e.2 hid).symm.trans hget)

/-- What is known of an id that is entered is one of the entries, whatever was known before. -/
theorem exists_mem_get?_insertAll {log : List (ExprId × Typing)} {id : ExprId}
    (h : id ∈ log.map Prod.fst) :
    ∃ r, (id, r) ∈ log ∧ ∀ t : TypingTable, (t.insertAll log).get? id = some r := by
  obtain ⟨r, hr⟩ := exists_get?_insertAll h
  refine ⟨r, (mem_of_get?_insertAll (hr empty)).resolve_right ?_, hr⟩
  rw [empty, get?_withRoom]
  exact Option.some_ne_none r ∘ Eq.symm

section Entered

variable {c : Context} {x : Expr} {e : ExprId × Typing}

/-- An entry is that of the expression itself, if it can be typed, or is made for an operand. -/
theorem entered_cases (he : e ∈ (judge c x).log) :
    x.id = e.1 ∧ (judge c x).outcome = .ok e.2 ∨ ∃ y ∈ x.operands, e ∈ (judge c y).log ∨
      ∃ site value ty, y = .literal site value ∧ e = (site.id, .ofConstant ty) := by
  cases x with
  | dangling => cases he
  | literal | name | attempt | now | sizeOf | taskOf => exact .inl (Judgement.eq_of_mem_conclude he)
  | monadic site op x =>
    cases hbound : judgeBound c site op (x ()) with
    | error halt =>
      simp only [judge, hbound] at he
      cases he
    | ok bound =>
      simp only [judge, hbound] at he ⊢
      cases bound with
      | some ty =>
        rcases List.mem_pair.mp he with rfl | rfl
        · obtain ⟨inner, value, hx⟩ := exists_literal_of_judgeBound hbound (by simp)
          exact .inr ⟨x (), List.mem_singleton_self _, .inr ⟨inner, value, ty, hx, by rw [hx]; rfl⟩⟩
        · exact .inl ⟨rfl, rfl⟩
      | none =>
        rcases Judgement.mem_andThen he with he | ⟨r, -, he, houtcome⟩
        · exact .inr ⟨x (), List.mem_singleton_self _, .inl he⟩
        · rw [houtcome]
          exact .inl (Judgement.eq_of_mem_conclude he)
  | paren site x | cont site x =>
    simp only [judge] at he ⊢
    rcases Judgement.mem_andThen he with he | ⟨r, -, he, houtcome⟩
    · exact .inr ⟨x (), List.mem_singleton_self _, .inl he⟩
    · rw [houtcome]
      exact .inl (Judgement.eq_of_mem_conclude he)
  | dyadic site op x y | slice site kind x y =>
    simp only [judge] at he ⊢
    rcases Judgement.mem_andThen he with he | ⟨r, -, he, houtcome⟩
    · exact .inr ⟨x (), List.mem_cons_self, .inl he⟩
    · rcases Judgement.mem_andThen he with he | ⟨r', -, he, houtcome'⟩
      · exact .inr ⟨y (), List.mem_cons_of_mem _ (List.mem_singleton_self _), .inl he⟩
      · rw [houtcome, houtcome']
        exact .inl (Judgement.eq_of_mem_conclude he)

/-- An entry is what a part with its id was typed as, but that of a number in a loop bound may be
made together with the sign. -/
theorem exists_part_of_entered (he : e ∈ (judge c x).log) :
    ∃ y, x.Part y ∧ y.id = e.1 ∧ ((judge c y).outcome = .ok e.2 ∨
      ∃ site value ty, y = .literal site value ∧ e.2 = .ofConstant ty) := by
  induction x using Expr.operands_induction with
  | step x ih =>
    rcases entered_cases he with ⟨hid, htyped⟩ | ⟨y, hy, he | ⟨site, value, ty, rfl, rfl⟩⟩
    · exact ⟨x, .refl, hid, .inl htyped⟩
    · obtain ⟨z, hz, hid, htyped⟩ := ih y hy he
      exact ⟨z, .head hy hz, hid, htyped⟩
    · exact ⟨_, .single hy, rfl, .inr ⟨site, value, ty, rfl, rfl⟩⟩

end Entered

end TypingTable

end Pearl
