import Pearl.Proofs.Constant.Fold
import Pearl.Proofs.Typing.Faults
import Pearl.Proofs.Typing.Monotone

/-! # Analysis at larger precisions

Two symbol tables that differ in precisions alone accept the same units, and refuse the others with
the same diagnostic. The types of an accepted unit have the same shapes over both tables, and no
precision shrinks when those of the table grow.
-/

namespace Pearl

/-! ## The pool -/

theorem ExprPlace.AtMost.precisions {table table' : SymbolTable} (h : table.AtMost table')
    (scope : ScopeId) {place place' : ExprPlace} (hplace : place.AtMost place') :
    (place.precisions table scope).AtMost (place'.precisions table' scope) := by
  cases hplace with
  | plain | clause | assigned => exact ⟨h.fixedLength scope, h.floatLength scope⟩
  | initial hty => exact (TypingTable.atMost_inside h scope).initializerPrecisionsOf hty

/-- The same literal at the same position, but for the place of its expression. -/
inductive Occurrence.AtMost : Occurrence → Occurrence → Prop
  | mk (scope : ScopeId) {place place' : ExprPlace} (h : place.AtMost place')
    (sign : Option ExprSite) (site : ExprSite) (value : Literal) :
    AtMost ⟨scope, place, sign, site, value⟩ ⟨scope, place', sign, site, value⟩

inductive Demand.AtMost : Demand → Demand → Prop
  | resolve (r : Resolution) : AtMost (.resolve r) (.resolve r)
  | literal {o o' : Occurrence} (h : o.AtMost o') : AtMost (.literal o) (.literal o')

theorem Expr.occurrences_atMost (scope : ScopeId) {place place' : ExprPlace}
    (h : place.AtMost place') (x : Expr) :
    List.Forall₂ Occurrence.AtMost (x.occurrences scope place) (x.occurrences scope place') := by
  induction x with
  | dangling | name | attempt | now | sizeOf | taskOf => exact .nil
  | literal site value => exact .cons (.mk scope h none site value) .nil
  | paren _ x ih | cont _ x ih => exact ih ()
  | dyadic _ _ x y ihx ihy | slice _ _ x y ihx ihy => exact List.rel_append (ihx ()) (ihy ())
  | monadic site op x ih =>
    rcases Expr.minus_literal_or op (x ()) with ⟨rfl, inner, value, hx⟩ | hx
    · rw [Expr.occurrences_minus_literal hx, Expr.occurrences_minus_literal hx]
      exact .cons (.mk scope h (some site) inner value) .nil
    · rw [Expr.occurrences_monadic hx, Expr.occurrences_monadic hx]
      exact ih ()

theorem Errand.demands_atMost {e e' : Errand} (h : e.AtMost e') :
    List.Forall₂ Demand.AtMost e.demands e'.demands := by
  cases h with
  | resolve r => exact .cons (.resolve r) .nil
  | missing => exact .nil
  | visit scope hplace x =>
    exact List.rel_map (fun _ _ ho => .literal ho) (x.occurrences_atMost scope hplace)

namespace SymbolTable.AtMost

variable {table table' : SymbolTable} (h : table.AtMost table')
include h

theorem demands (p : Program) : List.Forall₂ Demand.AtMost (p.demands table) (p.demands table') :=
  List.rel_flatMap (h.agenda p) fun _ _ he => Errand.demands_atMost he

theorem constant_alike {o o' : Occurrence} (ho : o.AtMost o') :
    ReadAlike Constant.AtMost (o.constant table) (o'.constant table') := by
  cases ho with
  | @mk scope place place' hplace sign site value =>
    have hprec := hplace.precisions h scope
    cases sign with
    | none =>
      rw [Occurrence.constant_unsigned, Occurrence.constant_unsigned]
      exact Literal.denote_alike hprec _ value
    | some minus =>
      rw [Occurrence.constant_signed, Occurrence.constant_signed]
      have hnegated := Literal.denoteNegated_alike hprec ⟨site.location, minus.text⟩ value
      generalize value.denoteNegated _ (place.precisions table scope) = k,
        value.denoteNegated _ (place'.precisions table' scope) = k' at hnegated
      cases hnegated with
      | error d => exact .error d
      | lost _ hfalse => exact hfalse.elim
      | ok hk =>
        cases hk with
        | none => exact Literal.denote_alike hprec _ value
        | some hk => exact .ok hk

theorem fault?_eq {d d' : Demand} (hd : d.AtMost d') : d.fault? table = d'.fault? table' := by
  cases hd with
  | resolve r => rw [Demand.fault?, Demand.fault?, h.outcome r]
  | @literal o o' ho =>
    have hconstant := h.constant_alike ho
    simp only [Demand.fault?]
    generalize o.constant table = k, o'.constant table' = k' at hconstant
    cases hconstant with
    | ok => rfl
    | error d => rfl
    | lost _ hfalse => exact hfalse.elim

/-- Collecting the constants fails alike. What is collected may differ. -/
theorem pool_alike {p : Program} (hwhole : ∀ e ∈ p.agenda table, e.Whole)
    (hwhole' : ∀ e ∈ p.agenda table', e.Whole) :
    TypingTable.PartAlike (fun _ _ => True) (Pool.ofProgram table p) (Pool.ofProgram table' p) := by
  rw [Pool.ofProgram_eq_inTurn table hwhole, Pool.ofProgram_eq_inTurn table' hwhole']
  refine inTurn_alike (T := fun _ _ => True) (h.demands p) (fun d d' s s' hd _ => ?_) trivial
  rw [Demand.settle_eq, Demand.settle_eq, Demand.outcome, Demand.outcome, h.fault?_eq hd]
  cases d'.fault? table' with
  | none => exact .ok trivial
  | some fault => exact .error _

end SymbolTable.AtMost

/-! ## The analysis -/

namespace Analysis

variable {table table' : SymbolTable} {tree : Tree}

/-- An analysis that fails has too many modules, or the fault of a pass. -/
theorem error_of_ofTree {halt : Halt} (h : ofTree table tree = .error halt) :
    (∃ d, halt = .reported d) ∨ Pool.ofTree table tree = .error halt ∨
      TypingTable.ofTree table tree = .error halt := by
  rcases bind_eq_error h with h | ⟨_, -, h⟩
  · unfold checkModules at h
    split at h
    · cases h
    · cases h
      exact .inl ⟨_, rfl⟩
  rcases bind_eq_error h with h | ⟨_, -, h⟩
  · exact .inr (.inl h)
  rcases bind_eq_error h with h | ⟨_, -, h⟩
  · exact .inr (.inr h)
  · cases h

/-- The analysis of a well-formed tree follows no dangling reference. -/
theorem ofTree_ne_dangling (table : SymbolTable) (hwf : tree.WellFormed) :
    ofTree table tree ≠ .error .danglingReference := by
  intro h
  have hwhole := hwf.whole_of_mem_agenda table
  rcases error_of_ofTree h with ⟨d, hd⟩ | h | h
  · cases hd
  · obtain ⟨d, hd⟩ := Pool.reported_of_ofProgram_eq_error hwhole h
    cases hd
  · obtain ⟨e, he, hfails⟩ := TypingTable.ofProgram_eq_error h
    exact Errand.typed_ne_dangling (hwhole e he) hfails

theorem checkModules_eq (h : table.AtMost table') (tree : Tree) :
    checkModules table tree = checkModules table' tree := by
  simp only [checkModules, h.modules]

/-- A unit is analysed alike over two tables that differ in precisions alone. -/
theorem ofTree_alike (h : table.AtMost table') (hwf : tree.WellFormed) :
    TypingTable.PartAlike (fun a a' => a.expressions.AtMost a'.expressions) (ofTree table tree)
      (ofTree table' tree) := by
  have hmodules :
      TypingTable.PartAlike (· = ·) (checkModules table tree) (checkModules table' tree) :=
    .of_eq (fun _ => rfl) (checkModules_eq h tree)
  have hpool := h.pool_alike (hwf.whole_of_mem_agenda table) (hwf.whole_of_mem_agenda table')
  have htypes := TypingTable.ofProgram_alike h tree.exprs.size tree.program
  refine hmodules.bind fun _ _ _ => hpool.bind fun _ _ _ => htypes.bind fun t t' ht => ?_
  exact .ok ht

/-- Over two tables that differ in precisions alone, a well-formed tree has the same diagnostic, or
types of the same shapes for the same expressions, with precisions over the first table that are at
most those over the second. No concatenation may get too long over the second table. -/
theorem ofTree_monotone (table table' : SymbolTable) (h : table.AtMost table') (tree : Tree)
    (hwf : tree.WellFormed) (hfits : ofTree table' tree ≠ .error .lengthOverflow) :
    (∃ d, ofTree table tree = .error (.reported d) ∧ ofTree table' tree = .error (.reported d)) ∨
      ∃ a a', ofTree table tree = .ok a ∧ ofTree table' tree = .ok a' ∧
        a.expressions.AtMost a'.expressions := by
  have halike := ofTree_alike h hwf
  have hdangling := ofTree_ne_dangling table' hwf
  generalize ofTree table tree = x, ofTree table' tree = x' at halike hfits hdangling
  cases halike with
  | ok ha => exact .inr ⟨_, _, rfl, rfl, ha⟩
  | lost x hlost => exact absurd (congrArg Except.error hlost) hfits
  | error halt =>
    cases halt with
    | reported d => exact .inl ⟨d, rfl, rfl⟩
    | danglingReference => exact absurd rfl hdangling
    | lengthOverflow => exact absurd rfl hfits

end Analysis

/-! ## The sample unit with more room -/

namespace Sample

/-- The table of the sample unit, with larger precisions. -/
def widerTable : SymbolTable :=
  let (_, m, t) := (SymbolTable.new { fixedPrecision := 40, floatPrecision := 53 }).openModule "m"
  let (_, t) := t.declare m "x" (.variable (.fixed 9) false)
  let (_, t) := t.declare m "f" (.variable (.array (.float 60)) false)
  let (_, task, t) := t.openTask m "t" true false
  let (_, t) := (t.setLengths task (some 25) none).openStatement ⟨2⟩ task
  t

theorem table_atMost_widerTable : table.AtMost widerTable where
  scopes := .cons ⟨rfl, fun _ => rfl, rfl, .none, .none⟩ <|
    .cons ⟨rfl, fun _ => rfl, rfl, .none, .none⟩ <|
    .cons ⟨rfl, fun _ => rfl, rfl, .some (by decide), .none⟩ <|
    .cons ⟨rfl, fun _ => rfl, rfl, .none, .none⟩ .nil
  symbols := .cons (.module _) <| .cons (.variable (.fixed (by decide)) _) <|
    .cons (.variable (.array (.float (by decide))) _) <| .cons (.task _ _ _) .nil
  stmtScope? _ := rfl
  defaults := ⟨by decide, by decide, le_rfl, le_rfl⟩

end Sample

/-- The sample unit is accepted over both tables, and what is assigned to `x` has the precision of
`x`. -/
theorem Analysis.ofTree_monotone_sample : Sample.table.AtMost Sample.widerTable ∧
    Sample.tree.WellFormed ∧ ofTree Sample.widerTable Sample.tree ≠ .error .lengthOverflow ∧
      ∃ a a', ofTree Sample.table Sample.tree = .ok a ∧
        ofTree Sample.widerTable Sample.tree = .ok a' ∧
        a.expressions.AtMost a'.expressions ∧ a.expressions.ty? ⟨5⟩ = some (.fixed 7) ∧
        a'.expressions.ty? ⟨5⟩ = some (.fixed 9) := by
  have hwf := Sample.refersBack_tree.wellFormed
  obtain ⟨a, ha, hty⟩ := map_eq_ok.mp (show (ofTree Sample.table Sample.tree).map
    (fun a => a.expressions.ty? ⟨5⟩) = .ok (some (.fixed 7)) by decide +kernel)
  obtain ⟨a', ha', hty'⟩ := map_eq_ok.mp (show (ofTree Sample.widerTable Sample.tree).map
    (fun a => a.expressions.ty? ⟨5⟩) = .ok (some (.fixed 9)) by decide +kernel)
  have hfits : ofTree Sample.widerTable Sample.tree ≠ .error .lengthOverflow := by
    rw [ha']
    exact nofun
  refine ⟨Sample.table_atMost_widerTable, hwf, hfits, a, a', ha, ha', ?_, hty, hty'⟩
  rcases ofTree_monotone _ _ Sample.table_atMost_widerTable _ hwf hfits with
    ⟨d, hd, -⟩ | ⟨b, b', hb, hb', hatMost⟩
  · cases ha.symm.trans hd
  · cases ha.symm.trans hb
    cases ha'.symm.trans hb'
    exact hatMost

end Pearl
