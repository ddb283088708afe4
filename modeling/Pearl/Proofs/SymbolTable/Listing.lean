import Mathlib.Data.List.Nodup
import Pearl.Proofs.SymbolTable.Modules

/-! # The symbols that a scope lists

A scope binds names, and it lists the symbols that it binds them to. The place of a name in the list
is that of its first declaration, and a later one puts its symbol there. The place is found by the
symbol that was there before, which is the right one since a symbol is bound to its own name alone
(`BindsOwn`). So the list says of each name, in the order of their first declarations, what the
scope binds it to (`Scope.Lists`).
-/

namespace Pearl

section EraseDups

variable {α : Type} [BEq α] [LawfulBEq α] {as : List α} {a : α}

theorem eraseDups_concat_of_mem (h : a ∈ as) : (as ++ [a]).eraseDups = as.eraseDups := by
  rw [List.eraseDups_append]
  simp [List.removeAll, h]

theorem eraseDups_concat_of_not_mem (h : a ∉ as) : (as ++ [a]).eraseDups = as.eraseDups ++ [a] := by
  rw [List.eraseDups_append]
  simp [List.removeAll, h, List.eraseDups_cons]

theorem nodup_eraseDups (as : List α) : as.eraseDups.Nodup := by
  induction as using List.reverseRecOn with
  | nil => exact List.nodup_nil
  | append_singleton as a ih =>
    by_cases ha : a ∈ as
    · rw [eraseDups_concat_of_mem ha]
      exact ih
    · rw [eraseDups_concat_of_not_mem ha, List.nodup_middle, List.append_nil, List.nodup_cons,
        List.mem_eraseDups]
      exact ⟨ha, ih⟩

end EraseDups

namespace Scope

variable {s : Scope} {names : List String}

/-- The scope lists what it binds the names to, in the order in which they first occur, and it binds
no others. -/
structure Lists (s : Scope) (names : List String) : Prop where
  declared : s.declared.map some = names.eraseDups.map s.lookup
  isSome_lookup : ∀ name, (s.lookup name).isSome ↔ name ∈ names

/-- No symbol is bound to two names. -/
def BindsApart (s : Scope) : Prop :=
  ∀ a b id, s.lookup a = some id → s.lookup b = some id → a = b

theorem map_lookup_bind {name : String} (h : name ∉ names) (id : SymbolId) :
    names.map (s.bind name id).lookup = names.map s.lookup :=
  List.map_congr_left fun _ hmem => s.lookup_bind_of_ne id fun heq => h (heq ▸ hmem)

/-- A symbol that is bound takes its place. -/
theorem declared_bind_of_some {name : String} {old : SymbolId} {before after : List SymbolId}
    (hlookup : s.lookup name = some old) (hdeclared : s.declared = before ++ old :: after)
    (hbefore : old ∉ before) (id : SymbolId) :
    (s.bind name id).declared = before ++ id :: after := by
  have hmem : old ∈ s.declared := hdeclared ▸ List.mem_append_cons_self
  show replaceDeclared s.declared (s.lookup name) id = _
  rw [hlookup, replaceDeclared, if_pos hmem, hdeclared, List.replace_append_right hbefore,
    List.replace_cons_self]

theorem Lists.bind (h : s.Lists names) (hapart : s.BindsApart) (name : String) (id : SymbolId) :
    (s.bind name id).Lists (names ++ [name]) where
  declared := by
    cases hlookup : s.lookup name with
    | none =>
      have hname : name ∉ names := by
        rw [← h.isSome_lookup, hlookup]
        exact Bool.false_ne_true
      have hbind : (s.bind name id).declared = s.declared ++ [id] := by
        show replaceDeclared s.declared (s.lookup name) id = _
        rw [hlookup, replaceDeclared]
      rw [hbind, eraseDups_concat_of_not_mem hname, List.map_append, List.map_append, h.declared,
        map_lookup_bind (mt List.mem_eraseDups.mp hname), List.map_singleton, List.map_singleton,
        lookup_bind_self]
    | some old =>
      have hname : name ∈ names := by
        rw [← h.isSome_lookup, hlookup]
        rfl
      obtain ⟨xs, ys, hsplit⟩ := List.append_of_mem (List.mem_eraseDups.mpr hname)
      have hnodup := nodup_eraseDups names
      have hlist := h.declared
      rw [hsplit] at hnodup hlist
      have hothers : name ∉ xs ++ ys := (List.nodup_cons.mp (List.nodup_middle.mp hnodup)).1
      rw [List.mem_append, not_or] at hothers
      obtain ⟨hxs, hys⟩ := hothers
      rw [List.map_append, List.map_cons, hlookup] at hlist
      obtain ⟨before, rest, hdeclared, hbefore, hrest⟩ := List.map_eq_append_iff.mp hlist
      obtain ⟨_, after, rfl, hold, hafter⟩ := List.map_eq_cons_iff.mp hrest
      cases hold
      have hfirst : old ∉ before := by
        intro hmem
        have hmem : some old ∈ xs.map s.lookup := hbefore ▸ List.mem_map_of_mem hmem
        obtain ⟨x, hx, hxold⟩ := List.mem_map.mp hmem
        exact hxs (hapart x name old hxold hlookup ▸ hx)
      rw [declared_bind_of_some hlookup hdeclared hfirst, eraseDups_concat_of_mem hname, hsplit,
        List.map_append, List.map_append, List.map_cons, List.map_cons, map_lookup_bind hxs,
        map_lookup_bind hys, lookup_bind_self, hbefore, hafter]
  isSome_lookup other := by
    rw [List.mem_append, List.mem_singleton]
    by_cases hother : other = name
    · rw [hother, lookup_bind_self]
      exact iff_of_true rfl (.inr rfl)
    · rw [lookup_bind_of_ne s id hother, h.isSome_lookup, or_iff_left hother]

section

variable (h : s.Lists names)
include h

theorem Lists.mem_declared_iff {id : SymbolId} :
    id ∈ s.declared ↔ ∃ name, s.lookup name = some id := by
  have hmem : id ∈ s.declared ↔ some id ∈ s.declared.map some := by simp
  rw [hmem, h.declared, List.mem_map]
  constructor
  · rintro ⟨name, -, hname⟩
    exact ⟨name, hname⟩
  · rintro ⟨name, hname⟩
    have hsome : (s.lookup name).isSome := by rw [hname]; rfl
    exact ⟨name, List.mem_eraseDups.mpr ((h.isSome_lookup name).mp hsome), hname⟩

theorem Lists.nodup_declared (hapart : s.BindsApart) : s.declared.Nodup := by
  refine List.Nodup.of_map some ?_
  rw [h.declared]
  refine (List.nodup_map_iff_inj_on (nodup_eraseDups names)).mpr fun a ha b _ heq => ?_
  obtain ⟨id, hid⟩ :=
    Option.isSome_iff_exists.mp ((h.isSome_lookup a).mpr (List.mem_eraseDups.mp ha))
  exact hapart a b id hid (heq ▸ hid)

end

end Scope

namespace SymbolTable

variable {t : SymbolTable} {i : ScopeId} {names : List String}

/-- What a scope binds a name to is a symbol of that name, which was declared in that scope. -/
def BindsOwn (t : SymbolTable) : Prop := ∀ i name id, t.lookupHere i name = some id →
  ∃ s, t.symbol? id = some s ∧ s.name = name ∧ s.declaredIn = i

theorem BindsOwn.declare (h : t.BindsOwn) (scope : ScopeId) (name : String) (kind : SymbolKind) :
    (t.declare scope name kind).2.BindsOwn := by
  intro i other id hid
  by_cases hself : (scope, name) = (i, other)
  · cases hself
    have hthere : (t.scope? scope).isSome := by
      cases hs : t.scope? scope with
      | none =>
        rw [lookupHere, scope?_declare, if_pos rfl, hs] at hid
        cases hid
      | some s => rfl
    rw [lookupHere_declare_self hthere] at hid
    cases hid
    exact ⟨⟨name, kind, scope⟩, Array.getElem?_push_size, rfl, rfl⟩
  · rw [lookupHere_declare_of_ne hself] at hid
    obtain ⟨s, hs, hname, hscope⟩ := h i other id hid
    exact ⟨s, symbol?_declare_of_some hs scope name kind, hname, hscope⟩

theorem BindsOwn.openScope (h : t.BindsOwn) (parent : ScopeId) :
    (t.openScope parent).2.BindsOwn := by
  intro i name id hid
  exact h i name id (lookupHere_openScope parent i name ▸ hid)

theorem BindsOwn.setLengths (h : t.BindsOwn) (scope : ScopeId) (fixed float : Option Precision) :
    (t.setLengths scope fixed float).BindsOwn := by
  intro i name id hid
  exact h i name id (lookupHere_setLengths scope fixed float i name ▸ hid)

theorem BindsOwn.perform (h : t.BindsOwn) (step : Step) : (t.perform step).2.BindsOwn :=
  preserved_perform (fun _ parent h => h.openScope parent)
    (fun _ scope name kind h => h.declare scope name kind)
    (fun _ scope fixed float h => h.setLengths scope fixed float) (fun _ _ h => h) h step

theorem bindsOwn_new (defaults : LanguageDefaults) : (new defaults).BindsOwn := by
  intro i name id hid
  rw [lookupHere_new] at hid
  cases hid

/-- In a table that was made by steps, names are bound to symbols of their own. -/
theorem bindsOwn_run (defaults : LanguageDefaults) (history : List Step) :
    ((new defaults).run history).BindsOwn := by
  induction history using List.reverseRecOn with
  | nil => exact bindsOwn_new defaults
  | append_singleton history step ih =>
    rw [run_concat]
    exact ih.perform step

theorem lookupHere_of_scope? {s : Scope} (hs : t.scope? i = some s) (name : String) :
    t.lookupHere i name = s.lookup name := by
  rw [lookupHere, hs]
  rfl

theorem BindsOwn.bindsApart (h : t.BindsOwn) {s : Scope} (hs : t.scope? i = some s) :
    s.BindsApart := by
  intro a b id ha hb
  rw [← lookupHere_of_scope? hs] at ha hb
  obtain ⟨x, hx, rfl, -⟩ := h i a id ha
  obtain ⟨y, hy, rfl, -⟩ := h i b id hb
  rw [Option.some.inj (hx.symm.trans hy)]

/-! ## Steps -/

/-- The scope lists what it binds the names to. One that is not there lists none and binds none. -/
def Lists (t : SymbolTable) (i : ScopeId) (names : List String) : Prop :=
  ((t.scope? i).getD { id := i, parent := none }).Lists names

/-- The name that a step declares in the scope, if the scope is there. -/
def nameIn? (t : SymbolTable) (i : ScopeId) (step : Step) : Option String :=
  step.declared?.bind fun d =>
    if d.1 = i ∧ i.index < (t.perform step).2.scopes.size then some d.2 else none

/-- The names that the steps declare in the scope while it is there, in turn. -/
def namesIn (i : ScopeId) : SymbolTable → List Step → List String
  | _, [] => []
  | t, step :: history => (t.nameIn? i step).toList ++ namesIn i (t.perform step).2 history

theorem lists_nil (id : ScopeId) (parent : Option ScopeId) : Scope.Lists { id, parent } [] :=
  ⟨rfl, fun _ => iff_of_false Bool.false_ne_true List.not_mem_nil⟩

theorem lists_new (defaults : LanguageDefaults) (i : ScopeId) : (new defaults).Lists i [] := by
  unfold Lists
  cases hs : (new defaults).scope? i with
  | none => exact lists_nil i none
  | some s =>
    obtain rfl := eq_of_scope?_new hs
    exact lists_nil root none

namespace Lists

variable (h : t.Lists i names)
include h

theorem openScope (parent : ScopeId) : (t.openScope parent).2.Lists i names := by
  unfold Lists at h ⊢
  rw [scope?_openScope]
  split
  · next hi =>
    rw [scope?, Array.getElem?_eq_none (Nat.le_of_eq hi.symm)] at h
    exact ⟨h.declared, h.isSome_lookup⟩
  · exact h

theorem setLengths (scope : ScopeId) (fixed float : Option Precision) :
    (t.setLengths scope fixed float).Lists i names := by
  unfold Lists at h ⊢
  rw [scope?_setLengths]
  cases hs : t.scope? i with
  | none =>
    rw [hs] at h
    split <;> exact h
  | some s =>
    rw [hs] at h
    split <;> exact ⟨h.declared, h.isSome_lookup⟩

/-- A declaration adds a name to those of its scope. -/
theorem declare (hown : t.BindsOwn) (scope : ScopeId) (name : String) (kind : SymbolKind) :
    (t.declare scope name kind).2.Lists i (names ++ (if scope = i ∧
      i.index < (t.declare scope name kind).2.scopes.size then some name else none).toList) := by
  have hsize : (t.declare scope name kind).2.scopes.size = t.scopes.size := Array.size_modify
  unfold Lists at h ⊢
  rw [scope?_declare, hsize]
  by_cases hi : scope = i
  · subst hi
    cases hs : t.scope? scope with
    | none =>
      have hmissing : ¬scope.index < t.scopes.size := by
        rw [← isSome_scope?, hs]
        exact Bool.false_ne_true
      rw [hs] at h
      rw [if_pos rfl, if_neg fun hthere => hmissing hthere.2, Option.toList_none, List.append_nil]
      exact h
    | some s =>
      have hthere : scope.index < t.scopes.size := isSome_scope?.mp (by rw [hs]; rfl)
      rw [hs] at h
      rw [if_pos rfl, if_pos ⟨rfl, hthere⟩, Option.toList_some]
      exact Scope.Lists.bind h (hown.bindsApart hs) name _
  · rw [if_neg fun hindex => hi (congrArg ScopeId.mk hindex), if_neg fun hthere => hi hthere.1,
      Option.toList_none, List.append_nil]
    exact h

theorem perform (hown : t.BindsOwn) (step : Step) :
    (t.perform step).2.Lists i (names ++ (t.nameIn? i step).toList) := by
  have howner (scope : ScopeId) (name : String) (kind : ScopeId → SymbolKind) :=
    (h.openScope scope).declare (hown.openScope scope) scope name (kind ⟨t.scopes.size⟩)
  cases step with
  | module name => exact howner root name .module
  | procedure scope name result => exact howner scope name (.procedure · result)
  | task scope name isMain isGlobal => exact howner scope name (.task · isMain isGlobal)
  | «variable» scope name | semaphore scope name | declare scope name =>
    exact h.declare hown scope name _
  | openScope parent | openStatement stmt parent =>
    exact (List.append_nil names).symm ▸ h.openScope parent
  | setLengths scope fixed float =>
    exact (List.append_nil names).symm ▸ h.setLengths scope fixed float

theorem run (hown : t.BindsOwn) (history : List Step) :
    (t.run history).Lists i (names ++ namesIn i t history) := by
  induction history generalizing t names with
  | nil =>
    rw [namesIn, List.append_nil]
    exact h
  | cons step history ih =>
    rw [namesIn, ← List.append_assoc]
    exact ih (h.perform hown step) (hown.perform step)

end Lists

/-- A scope that is there lists what it binds the names to that were declared in it. -/
theorem lists_run (defaults : LanguageDefaults) (history : List Step) {s : Scope}
    (hs : ((new defaults).run history).scope? i = some s) :
    s.Lists (namesIn i (new defaults) history) := by
  have h := (lists_new defaults i).run (bindsOwn_new defaults) history
  rw [Lists, hs] at h
  exact h

section Listed

variable (hown : t.BindsOwn) {s : Scope} (hlists : s.Lists names)
include hown hlists

/-- A symbol is listed where its own name is bound to it. -/
theorem mem_declared_iff (hs : t.scope? i = some s) {id : SymbolId} :
    id ∈ s.declared ↔ ∃ x, t.symbol? id = some x ∧ t.lookupHere i x.name = some id := by
  rw [hlists.mem_declared_iff]
  constructor
  · rintro ⟨name, hid⟩
    rw [← lookupHere_of_scope? hs] at hid
    obtain ⟨x, hx, rfl, -⟩ := hown i name id hid
    exact ⟨x, hx, hid⟩
  · rintro ⟨x, -, hid⟩
    exact ⟨x.name, lookupHere_of_scope? hs x.name ▸ hid⟩

/-- A name that the root binds to something else is not that of a module. -/
theorem name_ne_of_mem_modules (hs : t.scope? root = some s) {name : String} {id m : SymbolId}
    {x y : Symbol} (hid : t.lookupHere root name = some id) (hx : t.symbol? id = some x)
    (hkind : ∀ inner, x.kind ≠ .module inner) (hm : m ∈ t.modules) (hy : t.symbol? m = some y) :
    y.name ≠ name := by
  rintro rfl
  obtain ⟨hmem, z, inner, hz, hmodule⟩ := (mem_modules_iff hs).mp hm
  obtain rfl : y = z := Option.some.inj (hy.symm.trans hz)
  obtain ⟨z, hz, hbound⟩ := (mem_declared_iff hown hlists hs).mp hmem
  obtain rfl : y = z := Option.some.inj (hy.symm.trans hz)
  obtain rfl : m = id := Option.some.inj (hbound.symm.trans hid)
  obtain rfl : x = y := Option.some.inj (hx.symm.trans hy)
  exact hkind inner hmodule

end Listed

/-- Each scope lists what it binds. After any history of steps, whether or not the scopes that they
were given were there, a scope lists no symbol twice. It lists a symbol exactly if it binds the name
of the symbol to it, and then the symbol was declared in that scope. The list goes through the names
that were declared in the scope while it was there, in the order of their first declarations, and
has what each is bound to. The modules are those in the list of the root, in the same order. No
module has a name that the root binds to something else by now. -/
theorem declared_mirrors_bindings (defaults : LanguageDefaults) (history : List Step) :
    let t := (new defaults).run history
    (∀ i s, t.scope? i = some s →
      s.declared.Nodup ∧
      (∀ id, id ∈ s.declared ↔ ∃ x, t.symbol? id = some x ∧ t.lookupHere i x.name = some id) ∧
      (∀ id ∈ s.declared, ∃ x, t.symbol? id = some x ∧ x.declaredIn = i) ∧
      s.declared.map some = (namesIn i (new defaults) history).eraseDups.map (t.lookupHere i)) ∧
    ∃ s, t.scope? root = some s ∧
      t.modules.Sublist s.declared ∧
      (∀ id, id ∈ t.modules ↔
        id ∈ s.declared ∧ ∃ x inner, t.symbol? id = some x ∧ x.kind = .module inner) ∧
      ∀ name id x, t.lookupHere root name = some id → t.symbol? id = some x →
        (∀ inner, x.kind ≠ .module inner) → ∀ m ∈ t.modules, ∀ y, t.symbol? m = some y →
        y.name ≠ name := by
  intro t
  have hown : t.BindsOwn := bindsOwn_run defaults history
  constructor
  · intro i s hs
    have hlists := lists_run defaults history hs
    have hmem (id : SymbolId) :
        id ∈ s.declared ↔ ∃ x, t.symbol? id = some x ∧ t.lookupHere i x.name = some id :=
      mem_declared_iff hown hlists hs
    refine ⟨hlists.nodup_declared (hown.bindsApart hs), hmem, fun id hid => ?_, ?_⟩
    · obtain ⟨x, hx, hbound⟩ := (hmem id).mp hid
      obtain ⟨y, hy, -, hscope⟩ := hown i x.name id hbound
      exact ⟨y, hy, hscope⟩
    · rw [hlists.declared, funext (lookupHere_of_scope? hs)]
  · have hroot : (t.scope? root).isSome := isSome_scope?_root
    obtain ⟨s, hs⟩ := Option.isSome_iff_exists.mp hroot
    have hlists := lists_run defaults history hs
    refine ⟨s, hs, ?_, fun id => mem_modules_iff hs, ?_⟩
    · rw [modules, hs]
      exact List.filter_sublist
    · exact fun name id x hid hx hkind m hm y hy =>
        name_ne_of_mem_modules hown hlists hs hid hx hkind hm hy

/-- A variable of a scope that is not there yet is not listed. The second declaration of `b` has the
place of the first. The module is gone once its name is that of a semaphore. -/
example :
    let t := (new {}).run
      [.variable ⟨1⟩ "a" .clock false, .module "m", .variable ⟨1⟩ "b" .clock false,
      .variable ⟨1⟩ "a" .clock false, .semaphore ⟨1⟩ "b", .semaphore root "m"]
    (t.scope? ⟨1⟩).map Scope.declared = some [⟨4⟩, ⟨3⟩] ∧
      (t.scope? root).map Scope.declared = some [⟨5⟩] ∧ t.modules = [] := by
  decide

end SymbolTable

end Pearl
