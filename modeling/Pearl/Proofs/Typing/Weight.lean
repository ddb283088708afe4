import Pearl.Proofs.Constant.Bounds
import Pearl.Proofs.Literal.Width
import Pearl.Proofs.Tree.Origin
import Pearl.Proofs.Typing.Faults
import Pearl.Proofs.Typing.Names

/-! # Weights of leaves

The precisions in an expression come from its leaves. A leaf weighs as much as the precision inside
its type, but not less than one bit, which is what a comparison has, nor than the precision of a
ratio of durations. No part of an expression has a precision beyond the weight of its own leaves,
and a concatenation that runs out of length has leaves that weigh as much. So an expression whose
leaves weigh less than the limit has no such part.
-/

namespace Pearl

open Relation Walk

/-- An expression without operands. -/
def Expr.isLeaf (x : Expr) : Bool := x.operands.isEmpty

namespace TypingTable

/-! ## Leaves and their weights -/

section Leaves

variable (c : Context)

/-- The types of the leaves from left to right, none for a leaf that cannot be typed. A number in a
loop bound gets its type together with its sign. -/
def leafTys (x : Expr) : List (Option Ty) :=
  match x with
  | .dangling _ => []
  | .literal .. | .name .. | .attempt .. | .now _ | .sizeOf .. | .taskOf .. =>
    [(judge c x).outcome.toOption.map Typing.ty]
  | .monadic site op y => match judgeBound c site op (y ()) with
    | .ok (some ty) => [some ty]
    | _ => leafTys (y ())
  | .paren _ y | .cont _ y => leafTys (y ())
  | .dyadic _ _ y z | .slice _ _ y z => leafTys (y ()) ++ leafTys (z ())

/-- What any leaf weighs at least. -/
def leastWeight : Nat := max 1 c.table.defaults.durationRatioPrecision

/-- The weight of a leaf with the given type, if it has one. -/
def leafWeight (ty : Option Ty) : Nat := max (leastWeight c) (ty.elim 0 Ty.inner)

/-- The weight of all leaves together. -/
def weight (x : Expr) : Nat := ((leafTys c x).map (leafWeight c)).sum

/-- The weight of an expression that got the given type; a leaf weighs what that type does. -/
def weightAs (x : Expr) (ty : Ty) : Nat := if x.isLeaf then leafWeight c (some ty) else weight c x

end Leaves

variable {c : Context}

theorem leafTys_monadic_of_some {site : ExprSite} {op : Monadic} {y : Unit → Expr} {ty : Ty}
    (h : judgeBound c site op (y ()) = .ok (some ty)) :
    leafTys c (.monadic site op y) = [some ty] := by
  simp only [leafTys, h]

theorem leafTys_monadic_of_none {site : ExprSite} {op : Monadic} {y : Unit → Expr}
    (h : judgeBound c site op (y ()) = .ok none) :
    leafTys c (.monadic site op y) = leafTys c (y ()) := by
  simp only [leafTys, h]

theorem weight_dyadic (site : ExprSite) (op : Dyadic) (y z : Unit → Expr) :
    weight c (.dyadic site op y z) = weight c (y ()) + weight c (z ()) := by
  simp [weight, leafTys]

theorem weight_slice (site : ExprSite) (kind : SliceKind) (y z : Unit → Expr) :
    weight c (.slice site kind y z) = weight c (y ()) + weight c (z ()) := by
  simp [weight, leafTys]

/-- A leaf weighs as much as its type. -/
theorem le_weight_of_leaf {x : Expr} {ty : Ty} (h : leafTys c x = [some ty]) :
    leastWeight c ≤ weight c x ∧ ty.inner ≤ weight c x := by
  simp [weight, h, leafWeight]

/-! ## Bounds -/

/-- What has a type has a leaf, and its leaves weigh as much as the type. -/
theorem le_weight_of_judge {x : Expr} {r : Typing} (h : (judge c x).outcome = .ok r) :
    leastWeight c ≤ weight c x ∧ r.ty.inner ≤ weight c x := by
  induction x generalizing r with
  | dangling => cases h
  | literal | name | attempt | now | sizeOf | taskOf =>
    apply le_weight_of_leaf
    simp only [leafTys, h, Except.toOption, Option.map_some]
  | monadic site op y ih =>
    rcases judge_monadic_cases h with ⟨inner, value, ty, -, hbound, hj⟩ |
      ⟨s, ty, hbound, hs, hrule, rfl, -⟩
    · rw [hj] at h
      cases h
      exact le_weight_of_leaf (leafTys_monadic_of_some hbound)
    · obtain ⟨hleast, hinner⟩ := ih () hs
      rw [weight, leafTys_monadic_of_none hbound]
      refine ⟨hleast, (Monadic.inner_of_result hrule).trans (max_le ?_ hinner)⟩
      exact (le_max_left ..).trans hleast
  | paren site y ih =>
    obtain ⟨s, hs, h, -⟩ := Judgement.ok_of_andThen h
    cases h
    exact ih () hs
  | cont site y ih =>
    obtain ⟨s, hs, h, -⟩ := Judgement.ok_of_andThen h
    obtain ⟨hleast, hinner⟩ := ih () hs
    have htarget := (Judgement.ok_of_conclude h).1
    split at htarget
    · next target hty =>
      cases htarget
      rw [hty] at hinner
      exact ⟨hleast, hinner⟩
    · cases htarget
  | dyadic site op y z ihy ihz =>
    obtain ⟨s, hs, h, -⟩ := Judgement.ok_of_andThen h
    obtain ⟨s', hs', h, -⟩ := Judgement.ok_of_andThen h
    obtain ⟨ty, hty, rfl⟩ := map_eq_ok.mp (Judgement.ok_of_conclude h).1
    obtain ⟨hleast, hinner⟩ := ihy () hs
    obtain ⟨-, hinner'⟩ := ihz () hs'
    rw [weight_dyadic]
    have hleast' := hleast.trans (Nat.le_add_right _ (weight c (z ())))
    refine ⟨hleast', (Dyadic.inner_of_result (judgeRule_eq_ok hty)).trans (max_le hleast' ?_)⟩
    exact Nat.add_le_add hinner hinner'
  | slice site kind y z ihy ihz =>
    obtain ⟨s, hs, h, -⟩ := Judgement.ok_of_andThen h
    obtain ⟨s', hs', h, -⟩ := Judgement.ok_of_andThen h
    obtain ⟨hleast, -⟩ := ihy () hs
    rw [weight_slice]
    have hleast' := hleast.trans (Nat.le_add_right _ (weight c (z ())))
    have hone : r.ty.inner = 1 := by
      cases kind <;> cases h <;> rfl
    rw [hone]
    exact ⟨hleast', (le_max_left ..).trans hleast'⟩

/-- An operand weighs no more than the expression, but a leaf may get another type on its own than
under a sign. -/
theorem weight_le_of_operand {x y : Expr} (hy : y ∈ x.operands) (hleaf : y.isLeaf = false) :
    weight c y ≤ weight c x := by
  cases x with
  | dangling | literal | name | attempt | now | sizeOf | taskOf => cases hy
  | monadic site op x =>
    rw [List.mem_singleton.mp hy] at hleaf ⊢
    by_cases hbound : judgeBound c site op (x ()) = .ok none
    · rw [weight, weight, leafTys_monadic_of_none hbound]
    · obtain ⟨inner, value, hx⟩ := exists_literal_of_judgeBound rfl hbound
      rw [hx] at hleaf
      cases hleaf
  | paren site x | cont site x =>
    rw [List.mem_singleton.mp hy]
    exact Nat.le_refl _
  | dyadic site op x z =>
    rw [weight_dyadic]
    rcases List.mem_pair.mp hy with rfl | rfl
    · exact Nat.le_add_right ..
    · exact Nat.le_add_left ..
  | slice site kind x z =>
    rw [weight_slice]
    rcases List.mem_pair.mp hy with rfl | rfl
    · exact Nat.le_add_right ..
    · exact Nat.le_add_left ..

theorem weight_le_of_part {x y : Expr} (hy : x.Part y) (hleaf : y.isLeaf = false) :
    weight c y ≤ weight c x := by
  induction hy using ReflTransGen.head_induction_on with
  | refl => exact Nat.le_refl _
  | @head x z hz hzy ih =>
    refine ih.trans (weight_le_of_operand hz ?_)
    rcases ReflTransGen.cases_head hzy with rfl | ⟨w, hw, -⟩
    · exact hleaf
    · exact List.isEmpty_eq_false_iff.mpr (List.ne_nil_of_mem hw)

/-- What runs out of length has leaves that weigh as much as the limit. -/
theorem limit_le_weight {x : Expr} (h : (judge c x).outcome = .error .lengthOverflow) :
    precisionLimit ≤ weight c x := by
  obtain ⟨y, hy, hfails⟩ := exists_failsAt_of_judge h
  obtain ⟨form, hform, rs, hrs, hrule⟩ := hfails.violates_of_overflow
  obtain ⟨_, _, _, _, r, r', rfl, hoperands, hr, hr', hlong⟩ :=
    ExprForm.tooLong_of_operands hrs hrule
  cases y with
  | dyadic site op a b =>
    cases hoperands
    calc precisionLimit
      _ ≤ r.ty.inner + r'.ty.inner := hlong.le_inner
      _ ≤ weight c (a ()) + weight c (b ()) :=
        Nat.add_le_add (le_weight_of_judge hr).2 (le_weight_of_judge hr').2
      _ = weight c (.dyadic site op a b) := (weight_dyadic ..).symm
      _ ≤ weight c x := weight_le_of_part hy rfl
  | _ => cases hform

/-- An entry is made for a part that weighs as much. -/
theorem exists_part_weightAs {x : Expr} {e : ExprId × Typing} (he : e ∈ (judge c x).log) :
    ∃ y, x.Part y ∧ y.id = e.1 ∧ e.2.ty.inner ≤ weightAs c y e.2.ty := by
  obtain ⟨y, hy, hid, htyped⟩ := exists_part_of_entered he
  refine ⟨y, hy, hid, ?_⟩
  unfold weightAs
  split
  · exact le_max_right ..
  · next hleaf =>
    rcases htyped with htyped | ⟨site, value, ty, rfl, -⟩
    · exact (le_weight_of_judge htyped).2
    · cases hleaf rfl

/-! ## Entries of leaves -/

/-- The types entered for ids with the given property. -/
def enteredTys (p : ExprId → Bool) (log : List (ExprId × Typing)) : List (Option Ty) :=
  (log.filter fun e => p e.1).map fun e => some e.2.ty

theorem enteredTys_append (p : ExprId → Bool) (log log' : List (ExprId × Typing)) :
    enteredTys p (log ++ log') = enteredTys p log ++ enteredTys p log' := by
  simp [enteredTys]

theorem enteredTys_cons_of_pos {p : ExprId → Bool} {id : ExprId} (h : p id = true) (r : Typing)
    (log : List (ExprId × Typing)) :
    enteredTys p ((id, r) :: log) = some r.ty :: enteredTys p log := by
  simp [enteredTys, h]

theorem enteredTys_singleton_of_neg {p : ExprId → Bool} {id : ExprId} (h : p id = false)
    (r : Typing) : enteredTys p [(id, r)] = [] := by
  simp [enteredTys, h]

/-- The types of the leaves are those that are entered for them. -/
theorem leafTys_of_judge {p : ExprId → Bool} {x : Expr} {r : Typing}
    (h : (judge c x).outcome = .ok r) (hp : ∀ y, x.Part y → p y.id = y.isLeaf) :
    leafTys c x = enteredTys p (judge c x).log := by
  induction x generalizing r with
  | dangling => cases h
  | literal site | name site | attempt site | now site | sizeOf site | taskOf site =>
    have hself : p site.id = true := hp _ .refl
    simp only [leafTys, h, Except.toOption, Option.map_some]
    simp only [judge] at h ⊢
    rw [(Judgement.ok_of_conclude h).2, enteredTys_cons_of_pos hself]
    rfl
  | monadic site op y ih =>
    have hself : p site.id = false := hp _ .refl
    have hy : y () ∈ (Expr.monadic site op y).operands := List.mem_singleton_self _
    rcases judge_monadic_cases h with ⟨inner, value, ty, hx, hbound, hj⟩ |
      ⟨s, ty, hbound, hs, -, -, hlog⟩
    · have hinner : p inner.id = true := by
        have hnumber := hp _ (.single hy)
        rw [hx] at hnumber
        exact hnumber
      rw [leafTys_monadic_of_some hbound, hj, enteredTys_cons_of_pos hinner,
        enteredTys_singleton_of_neg hself]
      rfl
    · rw [leafTys_monadic_of_none hbound, hlog, enteredTys_append,
        enteredTys_singleton_of_neg hself, List.append_nil]
      exact ih () hs fun z hz => hp z (.head hy hz)
  | paren site y ih | cont site y ih =>
    have hself : p site.id = false := hp _ .refl
    have hbelow := fun z hz => hp z (.head (List.mem_singleton_self (y ())) hz)
    simp only [judge] at h ⊢
    obtain ⟨s, hs, h, hlog⟩ := Judgement.ok_of_andThen h
    rw [hlog, (Judgement.ok_of_conclude h).2, enteredTys_append, enteredTys_singleton_of_neg hself,
      List.append_nil]
    exact ih () hs hbelow
  | dyadic site op y z ihy ihz | slice site kind y z ihy ihz =>
    have hself : p site.id = false := hp _ .refl
    have hbelow := fun w hw => hp w (.head List.mem_cons_self hw)
    have hbelow' :=
      fun w hw => hp w (.head (List.mem_cons_of_mem _ (List.mem_singleton_self (z ()))) hw)
    simp only [judge] at h ⊢
    obtain ⟨s, hs, h, hlog⟩ := Judgement.ok_of_andThen h
    obtain ⟨s', hs', h, hlog'⟩ := Judgement.ok_of_andThen h
    rw [hlog, hlog', (Judgement.ok_of_conclude h).2, enteredTys_append, enteredTys_append,
      enteredTys_singleton_of_neg hself, List.append_nil, leafTys, ihy () hs hbelow,
      ihz () hs' hbelow']

/-! ## Typing an expression -/

/-- If the leaves of an expression weigh less than the limit together, typing it in any context
overflows nowhere: no length reaches the limit, and no width of a number, with its sign bit, comes
near it. Whatever is entered on the way, even if there is no type in the end, is for a part that
weighs as much as the precision entered. The leaves weigh what the types weigh that are entered for
them. -/
theorem infer_within_weight (tree : Tree) (x : ExprId) (hx : tree.SoundAt x) (c : Context)
    (hweight : weight c (tree.expr x) < precisionLimit) (t : TypingTable)
    (outcome : Except Halt Unit) (w : Walker TypingTable)
    (h : (infer (tree.expr x)).runFrom ⟨c, t⟩ = (outcome, w)) :
    outcome ≠ .error .lengthOverflow ∧
      (∀ (value : Literal) site v g, value.denote site c.precisions = .ok (.fixed v g) ∨
        value.denoteNegated site c.precisions = .ok (some (.fixed v g)) → fixedWidth v ≤ 65) ∧
      (outcome = .ok () → leafTys c (tree.expr x) =
        enteredTys (fun y => (tree.expr y).isLeaf) (judge c (tree.expr x)).log) ∧
      w.store = t.insertAll (judge c (tree.expr x)).log ∧
      ∀ y r, (y, r) ∈ (judge c (tree.expr x)).log →
        ReflTransGen tree.Operand x y ∧ r.ty.inner ≤ weightAs c (tree.expr y) r.ty := by
  rw [judges_infer] at h
  obtain ⟨rfl, rfl⟩ := Prod.mk.inj h
  refine ⟨?_, ?_, ?_, rfl, ?_⟩
  · intro hoverflow
    exact Nat.not_le_of_lt hweight (limit_le_weight (map_eq_error.mp hoverflow))
  · rintro value site v g (hdenote | hnegated)
    · exact fixedWidth_le (Literal.inBounds_of_denote hdenote)
    · exact fixedWidth_le (Literal.inBounds_of_denoteNegated hnegated)
  · intro hok
    obtain ⟨r, hr, -⟩ := map_eq_ok.mp hok
    apply leafTys_of_judge hr
    intro y hy
    obtain ⟨z, rfl, -⟩ := hx.exists_expr_of_part hy
    rw [Tree.id_expr]
  · intro y r hentry
    obtain ⟨e, hpart, hid, hinner⟩ := exists_part_weightAs hentry
    obtain ⟨z, rfl, hxz⟩ := hx.exists_expr_of_part hpart
    obtain rfl : z = y := by simpa using hid
    exact ⟨hxz, hinner⟩

end TypingTable

/-! ## A string of nearly the greatest length -/

namespace Sample

def stringsTable : SymbolTable :=
  let (_, m, t) := (SymbolTable.new { durationRatioPrecision := 1 }).openModule "m"
  let (_, t) := t.declare m "a" (.variable (.array (.bit 12)) false)
  (t.declare m "r" (.variable (.reference (.bit 0xFFFFFF00)) false)).2

def stringsTree : Tree where
  modules := []
  exprs := #[⟨.literal (.fixed "5" none), .unknown, "5"⟩, ⟨.monadic .minus ⟨0⟩, .unknown, "-5"⟩,
    ⟨.monadic .toBit ⟨1⟩, .unknown, "TOBIT -5"⟩, ⟨.name "a", .unknown, "a"⟩,
    ⟨.dyadic .cat ⟨2⟩ ⟨3⟩, .unknown, "TOBIT -5 CAT a"⟩, ⟨.name "r", .unknown, "r"⟩,
    ⟨.cont ⟨5⟩, .unknown, "CONT r"⟩, ⟨.dyadic .cat ⟨4⟩ ⟨6⟩, .unknown, "TOBIT -5 CAT a CAT CONT r"⟩]
  stmts := #[]

theorem refersBack_stringsTree : stringsTree.RefersBack := by decide

end Sample

/-- The leaves -5, a and r weigh as much as the whole string is long, which is just below the limit.
The number has the width that it was entered with, which counts the sign. -/
theorem TypingTable.infer_within_weight_strings :
    let bound : Context := { (Context.new Sample.stringsTable).inside ⟨1⟩ with inBound := true }
    let x := Sample.stringsTree.expr ⟨7⟩
    let whole : Ty := .bit 0xFFFFFF10
    Sample.stringsTree.SoundAt ⟨7⟩ ∧ weight bound x = 0xFFFFFF10 ∧
      ((infer x).runFrom ⟨bound, empty⟩).1 = .ok () ∧
      enteredTys (fun y => (Sample.stringsTree.expr y).isLeaf) (judge bound x).log =
        [some (.fixed 4), some (.bit 12), some (.reference (.bit 0xFFFFFF00))] ∧
      (⟨7⟩, .runtime whole) ∈ (judge bound x).log ∧ whole.inner ≤ weightAs bound x whole := by
  intro bound x whole
  have hx : Sample.stringsTree.SoundAt ⟨7⟩ := Sample.refersBack_stringsTree.soundAt (by decide)
  have hweight : weight bound x = 0xFFFFFF10 := by decide
  have hrun : ((infer x).runFrom ⟨bound, empty⟩).1 = .ok () := by decide
  have htys :
      leafTys bound x = [some (.fixed 4), some (.bit 12), some (.reference (.bit 0xFFFFFF00))] := by
    decide
  have hwhole : (⟨7⟩, .runtime whole) ∈ (judge bound x).log := by decide
  have hlimit : weight bound x < precisionLimit := by
    rw [hweight]
    decide
  generalize hw : (infer x).runFrom ⟨bound, empty⟩ = run at hrun ⊢
  obtain ⟨outcome, w⟩ := run
  obtain ⟨-, -, hleaves, -, hentries⟩ :=
    infer_within_weight Sample.stringsTree ⟨7⟩ hx bound hlimit empty outcome w hw
  exact ⟨hx, hweight, hrun, (hleaves hrun).symm.trans htys, hwhole, (hentries _ _ hwhole).2⟩

end Pearl
