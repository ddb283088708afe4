import Pearl.Proofs.SymbolTable.Declarations

/-! # Modules of a symbol table

The modules are among the symbols that the root lists. A declaration under a name that is bound
already takes the place of the symbol that was listed for it. At the root this may be a module, and
then there is one less.
-/

namespace Pearl

/-- One occurrence is replaced. -/
theorem exists_split_replace {α : Type} [DecidableEq α] {a : α} {as : List α} (h : a ∈ as) (b : α) :
    ∃ before after, as = before ++ a :: after ∧ as.replace a b = before ++ b :: after := by
  induction as with
  | nil => cases h
  | cons c as ih =>
    rw [List.replace_cons]
    split
    · next hc =>
      obtain rfl : a = c := by simpa using hc
      exact ⟨[], as, rfl, rfl⟩
    · next hc =>
      have hmem : a ∈ as := (List.mem_cons.mp h).resolve_left (by simpa using hc)
      obtain ⟨before, after, has, hreplace⟩ := ih hmem
      exact ⟨c :: before, after, congrArg (c :: ·) has, congrArg (c :: ·) hreplace⟩

namespace SymbolTable

variable {t : SymbolTable}

/-! ## Symbols that are listed -/

/-- Every symbol that a scope lists is in the table. -/
def Listed (t : SymbolTable) : Prop :=
  ∀ i s, t.scope? i = some s → ∀ id ∈ s.declared, id.index < t.symbols.size

theorem mem_replaceDeclared {declared : List SymbolId} {previous : Option SymbolId}
    {id new : SymbolId} (h : id ∈ Scope.replaceDeclared declared previous new) :
    id ∈ declared ∨ id = new := by
  unfold Scope.replaceDeclared at h
  split at h
  · split at h
    · next old hold =>
      obtain ⟨before, after, hdeclared, hreplace⟩ := exists_split_replace hold new
      rw [hreplace] at h
      rw [hdeclared]
      simp only [List.mem_append, List.mem_cons] at h ⊢
      tauto
    · simpa using h
  · simpa using h

/-- What is listed of some form, after a symbol of another form took the place of a previous one. -/
theorem filter_replaceDeclared {p : SymbolId → Bool} {declared : List SymbolId}
    {previous : Option SymbolId} {new : SymbolId} (hnew : p new = false) :
    ((¬∃ old ∈ declared.filter p, previous = some old) →
      (Scope.replaceDeclared declared previous new).filter p = declared.filter p) ∧
    ((∃ old ∈ declared.filter p, previous = some old) →
      ((Scope.replaceDeclared declared previous new).filter p).length + 1 =
        (declared.filter p).length) := by
  have hadded : (declared ++ [new]).filter p = declared.filter p := by simp [hnew]
  cases previous with
  | none => exact ⟨fun _ => hadded, fun ⟨_, _, hold⟩ => nomatch hold⟩
  | some old =>
    have hexists :
        (∃ other ∈ declared.filter p, some old = some other) ↔ old ∈ declared ∧ p old = true := by
      simp [List.mem_filter]
    rw [hexists]
    unfold Scope.replaceDeclared
    dsimp only
    split
    · next hmem =>
      obtain ⟨before, after, hdeclared, hreplace⟩ := exists_split_replace hmem new
      rw [hreplace, hdeclared]
      constructor
      · intro hother
        have hold : p old = false := by simpa [hmem] using hother
        simp [hnew, hold]
      · rintro ⟨-, hold⟩
        simp [hnew, hold]
        omega
    · next hmem => exact ⟨fun _ => hadded, fun ⟨hold, _⟩ => absurd hold hmem⟩

theorem Listed.openScope (h : t.Listed) (parent : ScopeId) : (t.openScope parent).2.Listed := by
  intro i s hs
  rw [scope?_openScope] at hs
  split at hs
  · cases hs
    exact List.forall_mem_nil _
  · exact h i s hs

theorem Listed.declare (h : t.Listed) (scope : ScopeId) (name : String) (kind : SymbolKind) :
    (t.declare scope name kind).2.Listed := by
  have hsize : (t.declare scope name kind).2.symbols.size = t.symbols.size + 1 := Array.size_push ..
  intro i s hs id hid
  rw [hsize]
  rw [scope?_declare] at hs
  split at hs
  · obtain ⟨s', hs', rfl⟩ := Option.map_eq_some_iff.mp hs
    rcases mem_replaceDeclared hid with hid | rfl
    · exact Nat.lt_succ_of_lt (h i s' hs' id hid)
    · exact Nat.lt_succ_self _
  · exact Nat.lt_succ_of_lt (h i s hs id hid)

theorem Listed.setLengths (h : t.Listed) (scope : ScopeId) (fixed float : Option Precision) :
    (t.setLengths scope fixed float).Listed := by
  intro i s hs
  rw [scope?_setLengths] at hs
  split at hs
  · obtain ⟨s', hs', rfl⟩ := Option.map_eq_some_iff.mp hs
    exact h i s' hs'
  · exact h i s hs

theorem listed_run (defaults : LanguageDefaults) (history : List Step) :
    ((new defaults).run history).Listed := by
  refine preserved_run (fun _ parent h => h.openScope parent)
    (fun _ scope name kind h => h.declare scope name kind)
    (fun _ scope fixed float h => h.setLengths scope fixed float) (fun _ _ h => h) ?_ history
  intro i s hs
  obtain rfl := eq_of_scope?_new hs
  exact List.forall_mem_nil _

/-! ## Modules -/

/-- A declaration of the name in the scope takes the place of a module at the root. -/
def ReplacesModule (t : SymbolTable) (scope : ScopeId) (name : String) : Prop :=
  scope = root ∧ ∃ id ∈ t.modules, t.lookupHere root name = some id

theorem isModule_iff {id : SymbolId} :
    t.isModule id ↔ ∃ s inner, t.symbol? id = some s ∧ s.kind = .module inner := by
  unfold isModule
  cases t.symbol? id with
  | none => simp
  | some s =>
    obtain ⟨name, kind, scope⟩ := s
    cases kind <;> simp

theorem mem_modules_iff {s : Scope} (hs : t.scope? root = some s) {id : SymbolId} : id ∈ t.modules ↔
    id ∈ s.declared ∧ ∃ x inner, t.symbol? id = some x ∧ x.kind = .module inner := by
  rw [modules, hs, List.mem_filter, isModule_iff]

theorem modules_openScope (hroot : (t.scope? root).isSome) (parent : ScopeId) :
    (t.openScope parent).2.modules = t.modules := by
  have hne : root.index ≠ t.scopes.size := Nat.ne_of_lt (isSome_scope?.mp hroot)
  have hmodule : (t.openScope parent).2.isModule = t.isModule := rfl
  unfold modules
  rw [scope?_openScope, if_neg hne, hmodule]

section Declare

variable {scope : ScopeId} (name : String) {kind : SymbolKind}

theorem isModule_declare_of_lt {id : SymbolId} (hid : id.index < t.symbols.size) :
    (t.declare scope name kind).2.isModule id = t.isModule id := by
  have hsymbol : (t.declare scope name kind).2.symbol? id = t.symbol? id := by
    obtain ⟨s, hs⟩ : ∃ s, t.symbol? id = some s := ⟨_, Array.getElem?_eq_getElem hid⟩
    rw [hs, symbol?_declare_of_some hs]
  simp only [isModule, hsymbol]

theorem isModule_declare_self (hkind : ∀ inner, kind ≠ .module inner) :
    (t.declare scope name kind).2.isModule ⟨t.symbols.size⟩ = false := by
  have hsymbol :
      (t.declare scope name kind).2.symbol? ⟨t.symbols.size⟩ = some ⟨name, kind, scope⟩ :=
    Array.getElem?_push_size
  unfold isModule
  rw [hsymbol]
  cases kind with
  | module inner => exact absurd rfl (hkind inner)
  | _ => rfl

/-- The modules after a declaration, unless it declares a module at the root. -/
theorem modules_declare (h : t.Listed) (hkind : scope = root → ∀ inner, kind ≠ .module inner)
    {s : Scope} (hs : t.scope? root = some s) :
    (¬t.ReplacesModule scope name → (t.declare scope name kind).2.modules = t.modules) ∧
      (t.ReplacesModule scope name →
        (t.declare scope name kind).2.modules.length + 1 = t.modules.length) := by
  have hmodules : t.modules = s.declared.filter t.isModule := by rw [modules, hs]
  have hkept : t.modules = s.declared.filter (t.declare scope name kind).2.isModule := by
    rw [hmodules]
    exact (List.filter_congr fun id hid => isModule_declare_of_lt name (h root s hs id hid)).symm
  by_cases hscope : scope = root
  · subst hscope
    have hafter : (t.declare root name kind).2.modules =
        (s.bind name ⟨t.symbols.size⟩).declared.filter (t.declare root name kind).2.isModule := by
      rw [modules, scope?_declare, if_pos rfl, hs]
      rfl
    have hlookup : t.lookupHere root name = s.lookup name := by
      rw [lookupHere, hs]
      rfl
    rw [ReplacesModule, and_iff_right rfl, hlookup, hafter, hkept]
    exact filter_replaceDeclared (isModule_declare_self name (hkind rfl))
  · have hindex : scope.index ≠ root.index := fun hindex => hscope (congrArg ScopeId.mk hindex)
    refine ⟨fun _ => ?_, fun hreplaces => absurd hreplaces.1 hscope⟩
    rw [hkept, modules, scope?_declare, if_neg hindex, hs]

end Declare

end SymbolTable

end Pearl
