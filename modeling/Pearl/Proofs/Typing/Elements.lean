import Pearl.Proofs.Typing.Names

/-! # Variables that are arrays

The name of an array stands for an element, one level down. Assignments and initialisers go by the
elements at the bottom, so that the two differ for arrays of arrays, whose names are typed as
arrays.
-/

namespace Pearl

namespace TypingTable

/-! ## Elements -/

theorem scalar_elementTy (ty : Ty) : (elementTy ty).scalar = ty.scalar := by
  cases ty <;> rfl

theorem elementTy_eq_array_iff {ty : Ty} :
    (∃ element, elementTy ty = .array element) ↔ ∃ element, ty = .array (.array element) := by
  cases ty <;> simp [elementTy]

theorem scalar_ne_array (ty element : Ty) : ty.scalar ≠ .array element := by
  induction ty with
  | array inner ih => exact ih
  | _ => rintro ⟨⟩

/-- One level down is the bottom but for arrays of arrays. -/
theorem elementTy_eq_scalar_iff {ty : Ty} :
    elementTy ty = ty.scalar ↔ ¬∃ element, ty = .array (.array element) := by
  rw [← elementTy_eq_array_iff, ← scalar_elementTy]
  cases elementTy ty with
  | array element => simp [(scalar_ne_array (.array element) element).symm]
  | _ => simp [Ty.scalar]

/-! ## Names in a program -/

end TypingTable

/-- A traversal meets the expression in the scope. -/
def Program.MeetsIn (p : Program) (table : SymbolTable) (x : ExprId) (scope : ScopeId) : Prop :=
  ∃ place top, .visit scope place top ∈ p.agenda table ∧ x ∈ top.ids

namespace TypingTable

variable {table : SymbolTable} {p : Program} {n : Nat} {t : TypingTable} {x : ExprId} {r : Typing}

/-- In a program that can be typed every expression that is met is known. -/
theorem exists_get?_of_meetsIn (h : ofProgram table n p = .ok t) {scope : ScopeId}
    (hx : p.MeetsIn table x scope) : ∃ r, t.get? x = some r := by
  obtain ⟨place, top, htop, hx⟩ := hx
  refine Option.isSome_iff_exists.mp ((isSome_get?_iff_mem_exprIds h).mpr ?_)
  exact List.mem_flatMap.mpr ⟨top, Program.mem_exprs_of_visit htop, hx⟩

/-- What is known of an expression was found in a scope where it is met, for a part of what was
visited there with its id. -/
theorem exists_part_of_get? (h : ofProgram table n p = .ok t) (hr : t.get? x = some r) :
    ∃ c top y, p.MeetsIn table x c.scope ∧ c.table = table ∧ top ∈ p.exprs ∧ top.Part y ∧ y.id = x ∧
      ((judge c y).outcome = .ok r ∨ ∃ site value ty, y = .literal site value ∧
        r = .ofConstant ty) := by
  obtain ⟨htyped, rfl⟩ := ofProgram_eq_ok_iff.mp h
  have hlog := (mem_of_get?_insertAll hr).resolve_right (by rw [get?_withRoom]; rintro ⟨⟩)
  obtain ⟨e, he, hentry⟩ := List.mem_flatMap.mp hlog
  cases e with
  | resolve | missing => cases hentry
  | visit scope place top =>
    obtain ⟨c, s, hframe, -, hlog⟩ := Errand.judge_of_typed (htyped _ he)
    rw [hlog] at hentry
    obtain ⟨y, hy, hid, houtcome⟩ := exists_part_of_entered hentry
    have hcursor := cursor_of_frame hframe
    have hscope : c.scope = scope := congrArg Cursor.current hcursor
    refine ⟨c, top, y, ?_, congrArg Cursor.table hcursor, Program.mem_exprs_of_visit he, hy, hid,
      houtcome⟩
    exact ⟨place, top, hscope ▸ he, Expr.mem_ids_iff.mpr ⟨y, hy, hid⟩⟩

/-- What is known of a name in a tree is what it stands for in a scope where it is met. -/
theorem judgeName_of_get? {tree : Tree} (h : ofTree table tree = .ok t) {node : ExprNode}
    {ident : String} (hnode : tree.expr? x = some node) (hname : node.form = .name ident)
    (hr : t.get? x = some r) :
    ∃ c site, tree.program.MeetsIn table x c.scope ∧ c.table = table ∧
      judgeName c site ident = .ok r := by
  obtain ⟨c, top, y, hmeets, htable, htop, hpart, hid, htyped⟩ := exists_part_of_get? h hr
  obtain ⟨z, -, rfl⟩ := Tree.exists_holds_of_mem_program htop
  obtain ⟨m, x', rfl, -⟩ := Tree.exists_reach_of_part hpart
  obtain rfl : x' = x := by simpa using hid
  cases m with
  | zero =>
    rcases htyped with houtcome | ⟨site, value, ty, hliteral, -⟩
    · cases houtcome
    · cases hliteral
  | succ m =>
    have hform := Tree.form?_unfoldExpr hnode m
    rw [hname] at hform
    generalize tree.unfoldExpr (m + 1) x' = y at hform htyped
    cases y with
    | name site ident' =>
      cases hform
      rcases htyped with houtcome | ⟨site, value, ty, hliteral, -⟩
      · exact ⟨c, site, hmeets, htable, (Judgement.ok_of_conclude houtcome).1⟩
      · cases hliteral
    | _ => cases hform

/-- In a unit that can be typed each name that is met is known, and what is known is what it stands
for in a scope where it is met. A variable is typed as its elements one level down. Those are the
elements at the bottom unless the variable is an array of arrays, and exactly then its name is typed
as an array. -/
theorem variable_typed_one_level_down (table : SymbolTable) (tree : Tree) (t : TypingTable)
    (h : ofTree table tree = .ok t) (x : ExprId) (node : ExprNode) (ident : String)
    (hnode : tree.expr? x = some node) (hname : node.form = .name ident) :
    (∀ scope, tree.program.MeetsIn table x scope → ∃ r, t.get? x = some r) ∧
    ∀ r, t.get? x = some r → ∃ scope, tree.program.MeetsIn table x scope ∧
      ((∃ id ty inv, table.NamesVariable scope ident id ty inv ∧ r = ⟨elementTy ty, inv, some id⟩ ∧
          r.ty.scalar = ty.scalar ∧
          (r.ty = ty.scalar ↔ ¬∃ element, ty = .array (.array element)) ∧
          ((∃ element, r.ty = .array element) ↔ ∃ element, ty = .array (.array element))) ∨
        ∃ ty, table.NamesFunction scope ident ty ∧ r = .runtime ty) := by
  refine ⟨fun scope => exists_get?_of_meetsIn h, fun r hr => ?_⟩
  obtain ⟨c, site, hmeets, rfl, hjudge⟩ := judgeName_of_get? h hnode hname hr
  refine ⟨c.scope, hmeets, ?_⟩
  rcases judgeName_cases hjudge with ⟨id, ty, inv, hvariable, rfl⟩ | hfunction
  · exact .inl ⟨id, ty, inv, hvariable, rfl, scalar_elementTy ty, elementTy_eq_scalar_iff,
      elementTy_eq_array_iff⟩
  · exact .inr hfunction

end TypingTable

/-! ## A unit that evaluates an array and an array of arrays -/

namespace Sample

def nestedTable : SymbolTable :=
  let (_, m, t) := (SymbolTable.new {}).openModule "m"
  let (_, t) := t.declare m "x" (.variable (.array (.array (.fixed 7))) false)
  let (_, t) := t.declare m "y" (.variable (.array (.fixed 7)) false)
  (t.openTask m "t" true false).2.2

def nestedTree : Tree where
  modules := [⟨"m", [.task "t" none [⟨0⟩, ⟨1⟩] .unknown], .unknown⟩]
  exprs := #[⟨.name "x", .unknown, "x"⟩, ⟨.name "y", .unknown, "y"⟩]
  stmts := #[⟨.eval ⟨0⟩, .unknown⟩, ⟨.eval ⟨1⟩, .unknown⟩]

theorem exists_ofTree_nested : ∃ t, TypingTable.ofTree nestedTable nestedTree = .ok t ∧
    t.get? ⟨0⟩ = some ⟨.array (.fixed 7), false, some ⟨1⟩⟩ ∧
    t.get? ⟨1⟩ = some ⟨.fixed 7, false, some ⟨2⟩⟩ := by
  have hentries :
      ((TypingTable.ofTree nestedTable nestedTree).map fun t => (t.get? ⟨0⟩, t.get? ⟨1⟩)) =
      .ok (some ⟨.array (.fixed 7), false, some ⟨1⟩⟩, some ⟨.fixed 7, false, some ⟨2⟩⟩) := by
    decide
  obtain ⟨t, ht, hpair⟩ := map_eq_ok.mp hentries
  exact ⟨t, ht, congrArg Prod.fst hpair, congrArg Prod.snd hpair⟩

end Sample

namespace TypingTable

/-- The name of the plain array is typed as its element, which is the one at the bottom. -/
theorem variable_typed_one_level_down_plain :
    ∃ t, ofTree Sample.nestedTable Sample.nestedTree = .ok t ∧
    t.get? ⟨1⟩ = some ⟨.fixed 7, false, some ⟨2⟩⟩ ∧
    ∃ scope ty, Sample.nestedTree.program.MeetsIn Sample.nestedTable ⟨1⟩ scope ∧
      Sample.nestedTable.NamesVariable scope "y" ⟨2⟩ ty false ∧ ty.scalar = .fixed 7 := by
  obtain ⟨t, ht, -, hy⟩ := Sample.exists_ofTree_nested
  obtain ⟨-, hknown⟩ :=
    variable_typed_one_level_down Sample.nestedTable Sample.nestedTree t ht ⟨1⟩ _ "y" rfl rfl
  obtain ⟨scope, hmeets, ⟨id, ty, inv, hvariable, hr, hscalar, -⟩ | ⟨ty, -, hr⟩⟩ := hknown _ hy
  · obtain ⟨-, rfl, hid⟩ := Typing.mk.inj hr
    cases hid
    exact ⟨t, ht, hy, scope, ty, hmeets, hvariable, hscalar.symm⟩
  · cases hr

/-- The name of an array of arrays is typed as an array. -/
theorem nested_array_typed_as_array : ∃ t, ofTree Sample.nestedTable Sample.nestedTree = .ok t ∧
    Sample.nestedTable.NamesVariable ⟨2⟩ "x" ⟨1⟩ (.array (.array (.fixed 7))) false ∧
    t.get? ⟨0⟩ = some ⟨.array (.fixed 7), false, some ⟨1⟩⟩ ∧
    Ty.array (.fixed 7) ≠ (Ty.array (.array (.fixed 7))).scalar := by
  obtain ⟨t, ht, hx, -⟩ := Sample.exists_ofTree_nested
  exact ⟨t, ht, ⟨by decide, by decide⟩, hx, by decide⟩

end TypingTable

end Pearl
