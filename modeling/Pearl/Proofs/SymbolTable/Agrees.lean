import Mathlib.Data.Fintype.Pigeonhole
import Pearl.Proofs.Alike
import Pearl.Proofs.SymbolTable.Chain
import Pearl.Proofs.Walk.Agenda

/-! # Tables that agree

Two tables agree on some scopes and names if they have the same scopes there, up to bindings of
other names, and the same symbols, and if nothing leads from these scopes to others. Then they give
the same answers about them, also where a chain of scopes does not end: a search comes upon all
scopes of a chain within as many steps as there are scopes in the table, and the second table may
have more.
-/

namespace Pearl

namespace SymbolTable

variable {t t' : SymbolTable} {i j : ScopeId} {k m n : Nat}

/-! ## Searches see the whole chain -/

theorem outer?_add : t.outer? (m + n) i = (t.outer? m i).bind (t.outer? n) := by
  induction m generalizing i with
  | zero =>
    rw [Nat.zero_add]
    rfl
  | succ m ih =>
    rw [Nat.succ_add, outer?, outer?]
    cases t.parent? i with
    | none => rfl
    | some p => exact ih

/-- The scopes on the way to a scope that is there are there. -/
theorem exists_outer?_of_le (h : t.outer? k i = some j) (hj : (t.scope? j).isSome) (hm : m ≤ k) :
    ∃ l, t.outer? m i = some l ∧ (t.scope? l).isSome := by
  obtain ⟨n, rfl⟩ := Nat.exists_eq_add_of_le hm
  rw [outer?_add] at h
  obtain ⟨l, hl, hlj⟩ := Option.bind_eq_some_iff.mp h
  refine ⟨l, hl, ?_⟩
  cases n with
  | zero =>
    cases hlj
    exact hj
  | succ n =>
    obtain ⟨p, hp, -⟩ := Option.bind_eq_some_iff.mp hlj
    exact isSome_of_parent? hp

/-- A way that is longer than the table has scopes comes to one of them twice, and there is a
shorter one: from the later visit it goes on as it could have done from the earlier. -/
theorem exists_outer?_lt (h : t.outer? k i = some j) (hj : (t.scope? j).isSome) :
    ∃ m < t.scopes.size, t.outer? m i = some j := by
  induction k using Nat.strong_induction_on with
  | _ k ih =>
    by_cases hk : k < t.scopes.size
    · exact ⟨k, hk, h⟩
    have hway : ∀ m : Fin (k + 1), ∃ l : Fin t.scopes.size, t.outer? m i = some ⟨l⟩ := by
      intro m
      obtain ⟨l, hl, hsome⟩ := exists_outer?_of_le h hj (Nat.le_of_lt_succ m.isLt)
      exact ⟨⟨l.index, isSome_scope?.mp hsome⟩, hl⟩
    choose visited hvisited using hway
    obtain ⟨a, b, hne, heq⟩ := Fintype.exists_ne_map_eq_of_card_lt visited (by simp; omega)
    have hshort : ∀ a b : Fin (k + 1), a < b → visited a = visited b →
        ∃ m < t.scopes.size, t.outer? m i = some j := by
      intro a b hlt heq
      have hab : t.outer? a i = t.outer? b i := by rw [hvisited, hvisited, heq]
      have hb : b.val + (k - b) = k := Nat.add_sub_of_le (Nat.le_of_lt_succ b.isLt)
      refine ih (a + (k - b)) (by omega) ?_
      rw [outer?_add, hab, ← outer?_add, hb]
      exact h
    rcases lt_or_gt_of_ne hne with hlt | hlt
    · exact hshort a b hlt heq
    · exact hshort b a hlt heq.symm

theorem mem_outward_succ {s : Scope} : s ∈ t.outward (n + 1) i ↔
    t.scope? i = some s ∨ ∃ p, t.parent? i = some p ∧ s ∈ t.outward n p := by
  cases hi : t.scope? i with
  | none => simp [outward_of_none hi, parent?, hi]
  | some s' =>
    rw [outward_succ hi, List.mem_cons, Option.some_inj, eq_comm]
    cases t.parent? i <;> simp

theorem mem_outward_iff {s : Scope} :
    s ∈ t.outward n i ↔ ∃ m < n, ∃ j, t.outer? m i = some j ∧ t.scope? j = some s := by
  induction n generalizing i with
  | zero => simp [outward]
  | succ n ih =>
    rw [mem_outward_succ]
    constructor
    · rintro (hi | ⟨p, hp, hs⟩)
      · exact ⟨0, Nat.succ_pos n, i, rfl, hi⟩
      · obtain ⟨m, hm, j, hj, hjs⟩ := ih.mp hs
        have hstep : t.outer? (m + 1) i = some j := by
          rw [outer?, hp]
          exact hj
        exact ⟨m + 1, Nat.succ_lt_succ hm, j, hstep, hjs⟩
    · rintro ⟨m, hm, j, hj, hjs⟩
      cases m with
      | zero =>
        cases hj
        exact .inl hjs
      | succ m =>
        obtain ⟨p, hp, hj⟩ := Option.bind_eq_some_iff.mp hj
        exact .inr ⟨p, hp, ih.mpr ⟨m, Nat.lt_of_succ_lt_succ hm, j, hj, hjs⟩⟩

theorem outward_prefix (h : m ≤ n) : ∃ rest, t.outward n i = t.outward m i ++ rest := by
  induction m generalizing i n with
  | zero => exact ⟨t.outward n i, rfl⟩
  | succ m ih =>
    obtain ⟨n, rfl⟩ : ∃ n', n = n' + 1 := ⟨n - 1, by omega⟩
    cases hi : t.scope? i with
    | none => exact ⟨[], by rw [outward_of_none hi, outward_of_none hi, List.append_nil]⟩
    | some s =>
      rw [outward_succ hi, outward_succ hi]
      cases t.parent? i with
      | none => exact ⟨[], (List.append_nil _).symm⟩
      | some p =>
        obtain ⟨rest, hrest⟩ := ih (i := p) (Nat.le_of_succ_le_succ h)
        exact ⟨rest, congrArg (s :: ·) hrest⟩

/-- Further steps outward than there are scopes find nothing new. -/
theorem findSome?_outward_of_le {α : Type} (f : Scope → Option α) (h : t.scopes.size ≤ n) :
    (t.outward n i).findSome? f = (t.enclosing i).findSome? f := by
  unfold enclosing
  obtain ⟨rest, hrest⟩ := outward_prefix (t := t) (i := i) h
  rw [hrest, List.findSome?_append]
  cases hfound : (t.outward t.scopes.size i).findSome? f with
  | some a => rfl
  | none =>
    refine List.findSome?_eq_none_iff.mpr fun s hs => ?_
    have hmem : s ∈ t.outward n i := hrest ▸ List.mem_append_right _ hs
    obtain ⟨k, -, j, hk, hj⟩ := mem_outward_iff.mp hmem
    obtain ⟨m, hm, hmj⟩ := exists_outer?_lt hk (by rw [hj]; rfl)
    exact List.findSome?_eq_none_iff.mp hfound s (mem_outward_iff.mpr ⟨m, hm, j, hmj, hj⟩)

end SymbolTable

/-! ## Agreement -/

/-- The scope that a symbol owns. -/
def SymbolKind.inner? : SymbolKind → Option ScopeId
  | .module scope | .procedure scope _ | .task scope _ _ => some scope
  | .variable .. | .semaphore => none

theorem Owner.inner?_of_scopeOf? {owner : Owner} {kind : SymbolKind} {scope : ScopeId}
    (h : owner.scopeOf? kind = some scope) : kind.inner? = some scope := by
  cases owner <;> cases kind <;> first | exact h | cases h

/-- The scope is given as a parent, as the scope of a symbol, or as that of a statement. -/
def SymbolTable.RefersTo (t : SymbolTable) (i : ScopeId) : Prop :=
  (∃ s ∈ t.scopes.toList, s.parent = some i) ∨ (∃ s ∈ t.symbols.toList, s.kind.inner? = some i) ∨
    ∃ b ∈ t.stmtScopes, b.2 = i

instance (t : SymbolTable) (i : ScopeId) : Decidable (t.RefersTo i) :=
  inferInstanceAs (Decidable (_ ∨ _ ∨ _))

section Agrees

variable (here : ScopeId → Prop) (named : String → Prop)

/-- The same scope but for bindings of other names. -/
structure Scope.Agrees (s s' : Scope) : Prop where
  parent : s.parent = s'.parent
  lookup : ∀ name, named name → s.lookup name = s'.lookup name
  fixedLength : s.fixedLength = s'.fixedLength
  floatLength : s.floatLength = s'.floatLength

structure SymbolTable.Agrees (t t' : SymbolTable) : Prop where
  scope? : ∀ i, here i → Option.Rel (Scope.Agrees named) (t.scope? i) (t'.scope? i)
  size_le : t.scopes.size ≤ t'.scopes.size
  bound : t.Bound
  symbol? : ∀ id : SymbolId, id.index < t.symbols.size → t.symbol? id = t'.symbol? id
  stmtScope? : ∀ stmt, t.stmtScope? stmt = t'.stmtScope? stmt
  here_of_refersTo : ∀ i, t.RefersTo i → here i
  defaults : t.defaults = t'.defaults

end Agrees

namespace SymbolTable.Agrees

variable {here : ScopeId → Prop} {named : String → Prop} {t t' : SymbolTable} {i : ScopeId}

section Search

variable (h : Agrees here named t t') (hi : here i)
include h hi

theorem outward (n : Nat) : List.Forall₂ (Scope.Agrees named) (t.outward n i) (t'.outward n i) := by
  induction n generalizing i with
  | zero => exact .nil
  | succ n ih =>
    have hscope := h.scope? i hi
    unfold SymbolTable.outward
    generalize hs : t.scope? i = s?, t'.scope? i = s'? at hscope
    cases hscope with
    | none => exact .nil
    | @some s s' hagrees =>
      refine .cons hagrees ?_
      rw [← hagrees.parent]
      cases hparent : s.parent with
      | none => exact .nil
      | some p =>
        refine ih (h.here_of_refersTo p (.inl ⟨s, ?_, hparent⟩))
        exact Array.mem_toList_iff.mpr (Array.mem_of_getElem? hs)

theorem findSome?_enclosing {α : Type} {f : Scope → Option α}
    (hf : ∀ s s', Scope.Agrees named s s' → f s = f s') :
    (t.enclosing i).findSome? f = (t'.enclosing i).findSome? f := by
  rw [← findSome?_outward_of_le f h.size_le]
  exact rel_eq_iff.mp (rel_findSome? (fun s s' hs => rel_eq_iff.mpr (hf s s' hs)) (h.outward hi _))

theorem fixedLength : t.fixedLength i = t'.fixedLength i := by
  unfold SymbolTable.fixedLength
  rw [h.findSome?_enclosing hi fun _ _ hs => hs.fixedLength, h.defaults]

theorem floatLength : t.floatLength i = t'.floatLength i := by
  unfold SymbolTable.floatLength
  rw [h.findSome?_enclosing hi fun _ _ hs => hs.floatLength, h.defaults]

variable {name : String} (hname : named name)
include hname

theorem lookup : t.lookup i name = t'.lookup i name :=
  h.findSome?_enclosing hi fun _ _ hs => hs.lookup name hname

theorem lookupHere : t.lookupHere i name = t'.lookupHere i name := by
  have hscope := h.scope? i hi
  unfold SymbolTable.lookupHere
  generalize t.scope? i = s, t'.scope? i = s' at hscope
  cases hscope with
  | none => rfl
  | some hs => exact hs.lookup name hname

theorem lookup_symbol? : (t.lookup i name).bind t.symbol? = (t'.lookup i name).bind t'.symbol? := by
  rw [← h.lookup hi hname]
  exact Option.bind_congr fun id hid => h.symbol? id (h.bound.lt_of_lookup hid)

theorem lookupHere_symbol? :
    (t.lookupHere i name).bind t.symbol? = (t'.lookupHere i name).bind t'.symbol? := by
  rw [← h.lookupHere hi hname]
  exact Option.bind_congr fun id hid => h.symbol? id (h.bound.lt_of_lookupHere hid)

end Search

end SymbolTable.Agrees

/-! ## Growth that agrees -/

theorem Scope.agrees_refl (named : String → Prop) (s : Scope) : Scope.Agrees named s s :=
  ⟨rfl, fun _ _ => rfl, rfl, rfl⟩

namespace SymbolTable

variable {named : String → Prop} {t : SymbolTable} (h : t.Bound)
include h

/-- Declaring a name makes no difference for other names, wherever it is declared. -/
theorem agrees_declare {name : String} (hname : ∀ other, named other → other ≠ name)
    (scope : ScopeId) (kind : SymbolKind) :
    Agrees (fun _ => True) named t (t.declare scope name kind).2 where
  scope? i _ := by
    rw [scope?_declare]
    cases t.scope? i with
    | none => split <;> exact .none
    | some s =>
      split
      · exact .some ⟨rfl, fun other hother => (s.lookup_bind_of_ne _ (hname other hother)).symm,
          rfl, rfl⟩
      · exact .some (s.agrees_refl named)
  size_le := (Array.size_modify ..).symm.le
  bound := h
  symbol? id hid := by
    obtain ⟨s, hs⟩ : ∃ s, t.symbol? id = some s := ⟨_, Array.getElem?_eq_getElem hid⟩
    rw [hs, symbol?_declare_of_some hs]
  stmtScope? _ := rfl
  here_of_refersTo _ _ := trivial
  defaults := rfl

/-- Opening a scope makes no difference if nothing refers to it yet. -/
theorem agrees_openScope (hfree : ¬t.RefersTo ⟨t.scopes.size⟩) (parent : ScopeId) :
    Agrees (· ≠ ⟨t.scopes.size⟩) named t (t.openScope parent).2 where
  scope? i hi := by
    rw [scope?_openScope, if_neg fun hindex => hi (congrArg ScopeId.mk hindex)]
    cases t.scope? i with
    | none => exact .none
    | some s => exact .some (s.agrees_refl named)
  size_le := by
    rw [openScope, Array.size_push]
    exact Nat.le_succ _
  bound := h
  symbol? _ _ := rfl
  stmtScope? _ := rfl
  here_of_refersTo i hi := by
    rintro rfl
    exact hfree hi
  defaults := rfl

end SymbolTable

end Pearl
