import Pearl.Proofs.Tree.Building
import Pearl.Proofs.Tree.Origin

/-! # Texts of built expressions

The text of an expression is put together when it is built, from the texts that its operands have at
that time. Nodes are only ever added, so that in the end each text still is the one that the whole
expression is written with, down to its leaves.
-/

namespace Pearl

/-! ## How expressions are written -/

namespace Literal

/-- A literal as it is written. -/
def spelling : Literal → String
  | .fixed digits none | .float digits none => digits
  | .fixed digits (some g) | .float digits (some g) => s!"{digits}({g})"
  | .bits digits base => s!"'{digits}'B{base}"
  | .string content => s!"'{content}'"
  | .duration h m s =>
    " ".intercalate ([h.map fun n => s!"{n} HRS", m.map fun n => s!"{n} MIN",
      s.map fun n => s!"{n} SEC"].filterMap id)
  | .clock h m s => s!"{h}:{m}:{s}"

theorem spelling_eq (l : Literal) : l.spelling = l.text := by
  cases l with
  | fixed digits g | float digits g => cases g <;> rfl
  | bits digits base => rfl
  | string content => rfl
  | duration h m s => cases h <;> cases m <;> cases s <;> rfl
  | clock h m s => rfl

end Literal

namespace Expr

/-- An expression as it is written: the texts of its operands, put together from the leaves up. -/
def spelling : Expr → String
  | .dangling _ => "?"
  | .literal _ value => value.spelling
  | .name _ ident => ident
  | .monadic _ .plus x => s!"+{(x ()).spelling}"
  | .monadic _ .minus x => s!"-{(x ()).spelling}"
  | .monadic _ op x => s!"{op.symbol} {(x ()).spelling}"
  | .dyadic _ op x y => s!"{(x ()).spelling} {op.symbol} {(y ()).spelling}"
  | .paren _ x => s!"({(x ()).spelling})"
  | .attempt _ semaphores => "TRY " ++ ",".intercalate semaphores
  | .now _ => "NOW"
  | .sizeOf _ ident => s!"SIZEOF {ident}"
  | .taskOf _ none => "TASK"
  | .taskOf _ (some ident) => s!"TASK({ident})"
  | .cont _ x => s!"CONT {(x ()).spelling}"
  | .slice _ .bit x y => s!"{(x ()).spelling}.BIT({(y ()).spelling})"
  | .slice _ .char x y => s!"{(x ()).spelling}.CHAR({(y ()).spelling})"

variable {x : Expr} {form : ExprForm} {textOf : ExprId → String}

/-- The text of a form is that of the expression if those of the operands are. -/
theorem spelling_eq_render (h : x.form? = some form)
    (hoperands : ∀ y ∈ x.operands, y.spelling = textOf y.id) : x.spelling = form.render textOf := by
  cases x with
  | dangling id => cases h
  | literal site value =>
    cases h
    exact value.spelling_eq
  | name | attempt | now | sizeOf =>
    cases h
    rfl
  | taskOf site ident =>
    cases h
    cases ident <;> rfl
  | monadic site op x =>
    cases h
    rw [ExprForm.render, ← hoperands (x ()) (List.mem_singleton_self _)]
    cases op <;> rfl
  | paren site x | cont site x =>
    cases h
    rw [ExprForm.render, ← hoperands (x ()) (List.mem_singleton_self _)]
    rfl
  | dyadic site op x y =>
    cases h
    rw [ExprForm.render, ← hoperands (x ()) (List.mem_cons_self ..),
      ← hoperands (y ()) (by simp [operands])]
    rfl
  | slice site kind x y =>
    cases h
    rw [ExprForm.render, ← hoperands (x ()) (List.mem_cons_self ..),
      ← hoperands (y ()) (by simp [operands])]
    apply String.toList_inj.mp
    cases kind <;> simp [spelling, SliceKind.applied, SliceKind.selector, toString]

end Expr

theorem ExprForm.render_congr {form : ExprForm} {f g : ExprId → String}
    (h : ∀ y ∈ form.children, f y = g y) : form.render f = form.render g := by
  cases form <;> simp_all [render, children]

/-! ## Nodes stay as they are -/

namespace Tree

/-- The nodes of the first tree are nodes of the second, with the same form, location and text. -/
structure Extends (t u : Tree) : Prop where
  exprs : ∀ x node, t.expr? x = some node → u.expr? x = some node
  stmts : ∀ r node, t.stmt? r = some node → u.stmt? r = some node

theorem Extends.refl (t : Tree) : t.Extends t := ⟨fun _ _ h => h, fun _ _ h => h⟩

theorem Extends.trans {t u v : Tree} (h : t.Extends u) (h' : u.Extends v) : t.Extends v :=
  ⟨fun x node hx => h'.exprs x node (h.exprs x node hx),
    fun r node hr => h'.stmts r node (h.stmts r node hr)⟩

end Tree

theorem eq_some_or_of_getElem?_push {α : Type} {as : Array α} {i : Nat} {a b : α}
    (h : (as.push b)[i]? = some a) : as[i]? = some a ∨ b = a := by
  rw [Array.getElem?_push] at h
  split at h
  · exact .inr (Option.some.inj h)
  · exact .inl h

theorem getElem?_push_of_some {α : Type} {as : Array α} {i : Nat} {a b : α} (h : as[i]? = some a) :
    (as.push b)[i]? = some a := by
  obtain ⟨hi, -⟩ := Array.getElem?_eq_some_iff.mp h
  rw [Array.getElem?_push_lt hi, ← Array.getElem?_eq_getElem hi, h]

namespace Builder

/-- The call leaves the text of an expression to the builder. -/
def Call.isTyped : Call → Bool
  | .exprAs _ _ => false
  | .locate _ | .expr _ | .stmt _ | .module _ _ => true

variable {b b' : Builder}

/-- The texts of the nodes that are there do not change. -/
theorem textOf_of_extends (h : b.tree.Extends b'.tree) {x : ExprId} (hx : (b.tree.expr? x).isSome) :
    b'.textOf x = b.textOf x := by
  obtain ⟨node, hnode⟩ := Option.isSome_iff_exists.mp hx
  unfold textOf
  rw [hnode, h.exprs x node hnode]

namespace Session

theorem extends_perform (s : Session) (call : Call) :
    s.builder.tree.Extends (s.perform call).builder.tree := by
  cases call with
  | locate | module => exact ⟨fun _ _ h => h, fun _ _ h => h⟩
  | expr | exprAs => exact ⟨fun _ _ h => getElem?_push_of_some h, fun _ _ h => h⟩
  | stmt => exact ⟨fun _ _ h => h, fun _ _ h => getElem?_push_of_some h⟩

theorem extends_foldl (s : Session) (calls : List Call) :
    s.builder.tree.Extends (calls.foldl perform s).builder.tree := by
  induction calls generalizing s with
  | nil => exact .refl _
  | cons call calls ih => exact (s.extends_perform call).trans (ih (s.perform call))

/-! ## Each text is right -/

/-- The text of each expression is that of its form with the texts of the operands. -/
def Rendered (s : Session) : Prop :=
  ∀ x node, s.builder.tree.expr? x = some node → node.text = node.form.render s.builder.textOf

variable {s : Session}

theorem rendered_empty : Rendered {} := by
  intro x node h
  cases h

/-- A call does not change how a form reads whose operands are there. -/
theorem render_perform {form : ExprForm}
    (h : ∀ y ∈ form.children, y.index < s.builder.tree.exprs.size) (call : Call) :
    form.render (s.perform call).builder.textOf = form.render s.builder.textOf := by
  apply ExprForm.render_congr
  intro y hy
  exact textOf_of_extends (s.extends_perform call) (Tree.isSome_expr?.mpr (h y hy))

theorem Sound.operand_lt (hs : s.Sound) {x y : ExprId} (h : s.builder.tree.Operand x y) :
    y.index < s.builder.tree.exprs.size := by
  obtain ⟨hyx, hx⟩ := hs.refersBack.lt_of_operand h
  exact Nat.lt_trans hyx hx

theorem Rendered.perform (hs : s.Sound) (h : s.Rendered) {call : Call} (hcall : s.Permits call)
    (htyped : call.isTyped = true) : (s.perform call).Rendered := by
  intro x node hnode
  have hold (hnode : s.builder.tree.expr? x = some node) :
      node.text = node.form.render (s.perform call).builder.textOf := by
    rw [render_perform fun y hy => hs.operand_lt ⟨node, hnode, hy⟩]
    exact h x node hnode
  cases call with
  | locate | stmt | module => exact hold hnode
  | exprAs => cases htyped
  | expr form =>
    rcases eq_some_or_of_getElem?_push hnode with hnode | rfl
    · exact hold hnode
    · exact (render_perform (fun y hy => hs.mem_exprs.mp (hcall.1 hy)) _).symm

/-- The texts of a sound session are those of the expressions that its ids lead to. The operands of
such an expression are the expressions of the operands of its id. -/
theorem Rendered.spelling_expr (hs : s.Sound) (h : s.Rendered) {x : ExprId} {node : ExprNode}
    (hnode : s.builder.tree.expr? x = some node) :
    (s.builder.tree.expr x).spelling = node.text := by
  generalize he : s.builder.tree.expr x = e
  induction e using Expr.operands_induction generalizing x node with
  | step e ih =>
    subst he
    have hx : x.index < s.builder.tree.exprs.size := Tree.isSome_expr?.mp (by rw [hnode]; rfl)
    obtain ⟨node', hnode', hform, -, hoperands⟩ := (hs.refersBack.soundAt hx).exists_node
    cases hnode.symm.trans hnode'
    rw [h x node hnode]
    apply Expr.spelling_eq_render hform
    intro e' he'
    rw [hoperands] at he'
    obtain ⟨y, hy, rfl⟩ := List.mem_map.mp he'
    have hlt := hs.operand_lt ⟨node, hnode, hy⟩
    obtain ⟨below, hbelow⟩ := Option.isSome_iff_exists.mp (Tree.isSome_expr?.mpr hlt)
    have hmem : s.builder.tree.expr y ∈ (s.builder.tree.expr x).operands := by
      rw [hoperands]
      exact List.mem_map_of_mem hy
    rw [ih _ hmem hbelow rfl, Tree.id_expr, textOf, hbelow]

/-- Each text of a built tree is that of the whole expression, and each node stays as it is whatever
calls follow. -/
theorem texts_are_spellings {calls : List Call} (h : Careful calls)
    (htyped : ∀ call ∈ calls, call.isTyped = true) :
    (∀ x node, (run calls).builder.tree.expr? x = some node →
        node.text = ((run calls).builder.tree.expr x).spelling) ∧
      ∀ later, (run calls).builder.tree.Extends (run (calls ++ later)).builder.tree := by
  have hboth : (run calls).Sound ∧ (run calls).Rendered := by
    refine (h.and_of_forall htyped).foldl (P := fun s => s.Sound ∧ s.Rendered) ?_
      ⟨sound_empty, rendered_empty⟩
    intro s call hs hcall
    exact ⟨hs.1.perform hcall.1, hs.2.perform hs.1 hcall.1 hcall.2⟩
  constructor
  · intro x node hnode
    exact (hboth.2.spelling_expr hboth.1 hnode).symm
  · intro later
    rw [run, run, List.foldl_append]
    exact extends_foldl _ later

/-- A slice of a name, its sign, and a term in parentheses that is compared with a duration. -/
def termCalls : List Call :=
  [.expr (.name "x"), .expr (.literal (.fixed "2" (some 15))), .expr (.slice .bit ⟨0⟩ ⟨1⟩),
    .expr (.monadic .minus ⟨2⟩), .locate (.point 4 9), .expr (.monadic .abs ⟨3⟩),
    .expr (.paren ⟨4⟩), .expr (.literal (.duration (some "2") none (some "1.5"))),
    .expr (.dyadic .lt ⟨5⟩ ⟨6⟩), .stmt (.eval ⟨7⟩)]

theorem texts_are_spellings_term : Careful termCalls ∧ (∀ call ∈ termCalls, call.isTyped = true) ∧
    ((run termCalls).builder.tree.expr ⟨7⟩).spelling = "(ABS -x.BIT(2(15))) < 2 HRS 1.5 SEC" ∧
    (run (termCalls ++ [.exprAs .now "?", .expr (.cont ⟨9⟩)])).builder.tree.stmt? ⟨0⟩ =
      some ⟨.eval ⟨7⟩, .point 4 9⟩ := by
  have hcareful : Careful termCalls := by decide
  have htyped : ∀ call ∈ termCalls, call.isTyped = true := by decide
  obtain ⟨htexts, hstay⟩ := texts_are_spellings hcareful htyped
  refine ⟨hcareful, htyped, ?_, ?_⟩
  · exact (htexts ⟨7⟩ ⟨.dyadic .lt ⟨5⟩ ⟨6⟩, .point 4 9, _⟩ rfl).symm
  · exact (hstay _).stmts ⟨0⟩ ⟨.eval ⟨7⟩, .point 4 9⟩ rfl

end Session

end Builder

end Pearl
