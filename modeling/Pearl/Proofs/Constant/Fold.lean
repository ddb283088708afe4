import Mathlib.Data.List.Forall2
import Pearl.Analysis
import Pearl.Proofs.Constant.Run
import Pearl.Proofs.Program.Coverage
import Pearl.Proofs.Tree.WellFormed
import Pearl.Proofs.Walk.Simulation

/-! # The pool of a program is a fold over its literals

Collecting the constants of a well-formed tree meets the demands of its program in turn. It succeeds
when all of them can be met, with the constants of the literals added in their order, and otherwise
ends with the fault of the first that cannot.
-/

namespace Pearl

open Walk

/-! ## Constants of signed literals -/

namespace Occurrence

variable (table : SymbolTable) (scope : ScopeId) (place : ExprPlace) (site inner : ExprSite)
  (value : Literal)

theorem constant_unsigned : (Occurrence.mk scope place none site value).constant table =
    value.denote ⟨site.location, site.text⟩ (place.precisions table scope) := by
  change (value.denote ⟨site.location, site.text⟩ (place.precisions table scope) >>= pure) = _
  exact bind_pure _

theorem constant_signed : (Occurrence.mk scope place (some site) inner value).constant table =
    match value.denoteNegated ⟨inner.location, site.text⟩ (place.precisions table scope) with
    | .ok (some c) => .ok c
    | .ok none => value.denote ⟨inner.location, inner.text⟩ (place.precisions table scope)
    | .error d => .error d := by
  unfold constant
  cases h : value.isNumeric with
  | true =>
    rw [Literal.denoteNegated_of_isNumeric h]
    simp only [blamed, isNegated, h, Option.isSome_some, Bool.and_self, if_true]
    cases value.denote ⟨inner.location, site.text⟩ (place.precisions table scope) with
    | error d => rfl
    | ok c =>
      change (if c.opposite.Fits then pure c.opposite else throw _) = _
      dsimp only [Except.bind]
      by_cases hfits : c.opposite.Fits
      · rw [if_pos hfits, if_pos hfits]
        rfl
      · rw [if_neg hfits, if_neg hfits]
        rfl
  | false =>
    rw [Literal.denoteNegated_of_not_isNumeric h]
    simp only [blamed, isNegated, h, Bool.and_false, Bool.false_eq_true, if_false]
    exact bind_pure _

end Occurrence

/-! ## Collecting reads the precisions in effect -/

/-- An action sees of the context only the precisions in effect, and leaves the context as it
was. -/
def Walk.ReadsPrecisions {σ : Type} (act : Walk σ Unit) : Prop :=
  ∀ (c c' : Context) (s : σ), c.precisions = c'.precisions →
    act.runFrom ⟨c, s⟩ = ((act.runFrom ⟨c', s⟩).1, ⟨c, (act.runFrom ⟨c', s⟩).2.store⟩)

theorem Walk.ReadsPrecisions.bind {σ : Type} {act act' : Walk σ Unit} (h : act.ReadsPrecisions)
    (h' : act'.ReadsPrecisions) : (act >>= fun _ => act').ReadsPrecisions := by
  intro c c' s hc
  rw [runFrom_bind, runFrom_bind, h c c' s hc, h c' c' s rfl]
  obtain ⟨outcome, w⟩ := act.runFrom ⟨c', s⟩
  cases outcome with
  | error e => rfl
  | ok u => exact h' c c' w.store hc

namespace Pool

theorem readsPrecisions_collectLiteral (site : ExprSite) (value : Literal) :
    (collectLiteral site value).ReadsPrecisions := by
  intro c c' s hc
  simp only [collectLiteral, runFrom_bind, runFrom_context, runFrom_ofExcept, hc]
  cases value.denote ⟨site.location, site.text⟩ c'.precisions <;> rfl

theorem readsPrecisions_collectNegated (site inner : ExprSite) (value : Literal) :
    (collectNegated site inner value).ReadsPrecisions := by
  intro c c' s hc
  have hinner := readsPrecisions_collectLiteral inner value c c' s hc
  simp only [collectNegated, runFrom_bind, runFrom_context, runFrom_ofExcept, hc]
  cases value.denoteNegated ⟨inner.location, site.text⟩ c'.precisions with
  | error d => rfl
  | ok constant =>
    cases constant with
    | none => exact hinner
    | some constant => rfl

section Monadic

variable {site inner : ExprSite} {value : Literal} {op : Monadic} {x : Unit → Expr}

theorem collect_minus_literal (h : x () = .literal inner value) :
    collect (.monadic site .minus x) = collectNegated site inner value := by
  simp only [collect, h]

theorem collect_monadic (h : ∀ inner value, op = .minus → x () ≠ .literal inner value) :
    collect (.monadic site op x) = collect (x ()) := by
  rw [collect]
  exact h

end Monadic

theorem readsPrecisions_collect (x : Expr) : (collect x).ReadsPrecisions := by
  induction x with
  | dangling | name | attempt | now | sizeOf | taskOf => exact fun _ _ _ _ => rfl
  | literal site value => exact readsPrecisions_collectLiteral site value
  | monadic site op x ih =>
    rcases Expr.minus_literal_or op (x ()) with ⟨rfl, inner, value, hx⟩ | hx
    · rw [collect_minus_literal hx]
      exact readsPrecisions_collectNegated site inner value
    · rw [collect_monadic hx]
      exact ih ()
  | paren _ x ih | cont _ x ih => exact ih ()
  | dyadic _ _ x y ihx ihy | slice _ _ x y ihx ihy => exact (ihx ()).bind (ihy ())

theorem steady_collecting : collecting.Steady := by
  intro x place c s
  cases place with
  | plain | clause | assigned => exact readsPrecisions_collect x c (c.inside c.scope) s rfl
  | initial ty =>
    simp only [Pass.visit, collecting, initializing, runFrom_bind, runFrom_context, runFrom_bracket]
    rw [readsPrecisions_collect x { c with initial := some (c.initializerPrecisionsOf ty) }
      { c.inside c.scope with initial := some (c.initializerPrecisionsOf ty) } s rfl]
    rfl

end Pool

/-! ## Demands in turn -/

/-- An errand whose demands are met is passed. -/
theorem Errand.passed_of_demands {table : SymbolTable} {e : Errand} (he : e.Whole)
    (h : ∀ d ∈ e.demands, d.fault? table = none) : e.Passed table := by
  cases e with
  | visit => exact trivial
  | missing => exact he.elim
  | resolve r =>
    have hr : (Demand.resolve r).fault? table = none := h _ (List.mem_singleton_self _)
    cases hout : r.outcome table with
    | error d => simp [Demand.fault?, hout] at hr
    | ok u => exact hout

/-- Settle a demand, pooling the constant of a literal. -/
def Demand.settle (table : SymbolTable) : Demand → Pool → Except Halt Unit × Pool
  | .resolve r, p => ((r.outcome table).mapError .reported, p)
  | .literal o, p => match o.constant table with
    | .ok c => (.ok (), (p.add c).2)
    | .error d => (.error (.reported d), p)

namespace Demand

variable {table : SymbolTable}

/-- What a demand adds to the pool. -/
def constants (table : SymbolTable) : Demand → List Constant
  | .resolve _ => []
  | .literal o => match o.constant table with
    | .ok c => [c]
    | .error _ => []

/-- The outcome of a demand, which does not depend on the pool. -/
def outcome (table : SymbolTable) (d : Demand) : Except Halt Unit :=
  match d.fault? table with
  | none => .ok ()
  | some fault => .error (.reported fault)

theorem outcome_eq_ok {d : Demand} : d.outcome table = .ok () ↔ d.fault? table = none := by
  unfold outcome
  cases d.fault? table <;> simp

theorem outcome_eq_error {d : Demand} {halt : Halt} :
    d.outcome table = .error halt ↔ ∃ fault, d.fault? table = some fault ∧
    halt = .reported fault := by
  unfold outcome
  cases d.fault? table <;> simp [eq_comm]

theorem settle_eq (d : Demand) (p : Pool) :
    d.settle table p = (d.outcome table, p.addAll (d.constants table)) := by
  cases d with
  | resolve r =>
    simp only [settle, outcome, fault?, constants]
    cases r.outcome table <;> rfl
  | literal o =>
    simp only [settle, outcome, fault?, constants]
    cases o.constant table <;> rfl

theorem foldl_constants (ds : List Demand) (p : Pool) :
    ds.foldl (fun p d => p.addAll (d.constants table)) p =
      p.addAll (ds.flatMap (constants table)) :=
  List.foldl_flatMap.symm

/-- Where no demand has a fault, each literal adds its constant. -/
theorem forall₂_constants {ds : List Demand} (h : ∀ d ∈ ds, d.fault? table = none) :
    List.Forall₂ (fun o c => o.constant table = .ok c) (ds.filterMap occurrence?)
      (ds.flatMap (constants table)) := by
  induction ds with
  | nil => exact .nil
  | cons d ds ih =>
    obtain ⟨hd, hds⟩ := List.forall_mem_cons.mp h
    cases d with
    | resolve r => exact ih hds
    | literal o =>
      cases ho : o.constant table with
      | error fault => simp [fault?, ho] at hd
      | ok c =>
        rw [List.flatMap_cons, constants, ho]
        exact .cons ho (ih hds)

end Demand

namespace Pool

section Collect

variable {table : SymbolTable} {scope : ScopeId} {place : ExprPlace} {c : Context}
  (hc : c.precisions = place.precisions table scope)
include hc

theorem collectLiteral_settles (site : ExprSite) (value : Literal) :
    DoesInTurn (Demand.settle table) c (collectLiteral site value)
      [.literal ⟨scope, place, none, site, value⟩] := by
  intro s
  rw [inTurn_singleton]
  simp only [collectLiteral, Demand.settle, runFrom_bind, runFrom_context, runFrom_ofExcept, hc,
    Occurrence.constant_unsigned]
  cases value.denote ⟨site.location, site.text⟩ (place.precisions table scope) <;> rfl

theorem collectNegated_settles (site inner : ExprSite) (value : Literal) :
    DoesInTurn (Demand.settle table) c (collectNegated site inner value)
      [.literal ⟨scope, place, some site, inner, value⟩] := by
  intro s
  have hinner := collectLiteral_settles hc inner value s
  rw [inTurn_singleton] at hinner ⊢
  simp only [Demand.settle, Occurrence.constant_unsigned] at hinner
  simp only [collectNegated, Demand.settle, runFrom_bind, runFrom_context, runFrom_ofExcept, hc,
    Occurrence.constant_signed]
  cases value.denoteNegated ⟨inner.location, site.text⟩ (place.precisions table scope) with
  | error d => rfl
  | ok constant =>
    cases constant with
    | none => exact hinner
    | some constant => rfl

/-- Collecting an expression settles its literals from left to right. -/
theorem collect_settles {x : Expr} (hx : x.Whole) :
    DoesInTurn (Demand.settle table) c (collect x)
      ((x.occurrences scope place).map .literal) := by
  induction x with
  | dangling => exact hx.elim
  | name | attempt | now | sizeOf | taskOf => exact doesInTurn_pure
  | literal site value => exact collectLiteral_settles hc site value
  | monadic site op x ih =>
    rcases Expr.minus_literal_or op (x ()) with ⟨rfl, inner, value, h⟩ | h
    · rw [collect_minus_literal h, Expr.occurrences_minus_literal h]
      exact collectNegated_settles hc site inner value
    · rw [collect_monadic h, Expr.occurrences_monadic h]
      exact ih () hx
  | paren _ x ih | cont _ x ih => exact ih () hx
  | dyadic _ _ x y ihx ihy | slice _ _ x y ihx ihy =>
    rw [Expr.occurrences, List.map_append]
    exact (ihx () hx.1).bind (ihy () hx.2)

end Collect

theorem visit_settles (table : SymbolTable) (scope : ScopeId) (place : ExprPlace) {x : Expr}
    (hx : x.Whole) :
    DoesInTurn (Demand.settle table) ((Context.new table).inside scope) (collecting.visit x place)
      ((x.occurrences scope place).map .literal) := by
  cases place with
  | plain | clause | assigned => exact collect_settles rfl hx
  | initial ty =>
    intro s
    simp only [Pass.visit, runFrom_bind, runFrom_context]
    exact DoesInTurn.bracket rfl (collect_settles rfl hx) s

/-- An errand comes to the same as settling its demands. -/
theorem perform_collecting (table : SymbolTable) {e : Errand} (he : e.Whole) (s : Pool) :
    collecting.perform (.new table) e s = inTurn (Demand.settle table) e.demands s := by
  cases e with
  | resolve r => rw [Errand.demands, inTurn_singleton]; rfl
  | missing => exact he.elim
  | visit scope place x =>
    rw [Pass.perform, visit_settles table scope place he s]
    rfl

/-- The pool of a program without dangling nodes comes from settling its demands in turn. -/
theorem ofProgram_eq_inTurn (table : SymbolTable) {p : Program}
    (h : ∀ e ∈ p.agenda table, e.Whole) :
    ofProgram table p =
      (inTurn (Demand.settle table) (p.demands table) (basic table.defaults.fixedPrecision)).1.map
        fun _ =>
          (inTurn (Demand.settle table) (p.demands table)
            (basic table.defaults.fixedPrecision)).2 := by
  rw [Program.demands, ← inTurn_flatMap fun e he => perform_collecting table (h e he)]
  exact Pass.run_eq_inTurn steady_collecting table _ p

/-- The pool is there if no demand has a fault, and then has the constants of all literals. -/
theorem ofProgram_eq_ok_iff (table : SymbolTable) {p : Program} (h : ∀ e ∈ p.agenda table, e.Whole)
    (pool : Pool) : ofProgram table p = .ok pool ↔
      (∀ d ∈ p.demands table, d.fault? table = none) ∧
        (basic table.defaults.fixedPrecision).addAll
          ((p.demands table).flatMap (Demand.constants table)) = pool := by
  rw [ofProgram_eq_inTurn table h, map_store_eq_ok, inTurn_eq_ok_iff (Demand.outcome table)
    (fun d p => p.addAll (d.constants table)) (fun d _ p => by rw [Demand.settle_eq])
    fun d _ p _ => by rw [Demand.settle_eq]]
  simp only [Demand.outcome_eq_ok, Demand.foldl_constants]

/-- A pool is missing only where a demand has a fault. -/
theorem reported_of_ofProgram_eq_error {table : SymbolTable} {p : Program}
    (hwhole : ∀ e ∈ p.agenda table, e.Whole) {halt : Halt} (h : ofProgram table p = .error halt) :
    ∃ d, halt = .reported d := by
  rw [ofProgram_eq_inTurn table hwhole, map_eq_error,
    inTurn_eq_error_iff (Demand.outcome table) fun d _ p => by rw [Demand.settle_eq]] at h
  obtain ⟨before, d, after, -, -, hd⟩ := h
  obtain ⟨fault, -, rfl⟩ := Demand.outcome_eq_error.mp hd
  exact ⟨fault, rfl⟩

/-- The literals with positions are all literals of a tree that has a pool. The pool is made by
adding their constants in the order of a traversal, and is there if all demands can be met.
Otherwise the first demand that cannot be met gives its fault. -/
theorem ofTree_eq_fold (table : SymbolTable) (tree : Tree) (h : tree.WellFormed) :
    (∀ pool, ofTree table tree = .ok pool ↔
      (∀ d ∈ tree.program.demands table, d.fault? table = none) ∧
        ∃ cs, List.Forall₂ (fun o c => o.constant table = .ok c)
            (tree.program.occurrences table) cs ∧
          pool = (basic table.defaults.fixedPrecision).addAll cs) ∧
      (∀ pool, ofTree table tree = .ok pool →
        (tree.program.occurrences table).map (fun o => (o.site, o.value)) = tree.program.literals) ∧
      ∀ halt, ofTree table tree = .error halt ↔
        ∃ before d after fault, tree.program.demands table = before ++ d :: after ∧
          (∀ b ∈ before, b.fault? table = none) ∧ d.fault? table = some fault ∧
            halt = .reported fault := by
  have hwhole := h.whole_of_mem_agenda table
  refine ⟨fun pool => ?_, fun pool hpool => ?_, fun halt => ?_⟩
  · refine (ofProgram_eq_ok_iff table hwhole pool).trans (and_congr_right fun hmet => ?_)
    have hcs := Demand.forall₂_constants hmet
    constructor
    · exact fun hpool => ⟨_, hcs, hpool.symm⟩
    · rintro ⟨cs, hcs', rfl⟩
      have hunique : Relator.RightUnique fun (o : Occurrence) c => o.constant table = .ok c :=
        fun _ _ _ hc hc' => Except.ok.inj (hc.symm.trans hc')
      rw [hunique.forall₂ hcs' hcs]
  · have hmet := ((ofProgram_eq_ok_iff table hwhole pool).mp hpool).1
    refine Program.occurrences_eq_literals table _ fun e he => ?_
    exact Errand.passed_of_demands (hwhole e he) fun d hd => hmet d (List.mem_flatMap_of_mem he hd)
  · rw [ofTree, ofProgram_eq_inTurn table hwhole, map_eq_error,
      inTurn_eq_error_iff (Demand.outcome table) fun d _ p => by rw [Demand.settle_eq]]
    simp only [Demand.outcome_eq_ok, Demand.outcome_eq_error]
    constructor
    · rintro ⟨before, d, after, hsplit, hbefore, fault, hfault, rfl⟩
      exact ⟨before, d, after, fault, hsplit, hbefore, hfault, rfl⟩
    · rintro ⟨before, d, after, fault, hsplit, hbefore, hfault, rfl⟩
      exact ⟨before, d, after, hsplit, hbefore, fault, hfault, rfl⟩

end Pool

/-- The constants of the sample unit in order, of which the float is 1.5. -/
def Sample.constants : List Constant :=
  [.fixed 5 31, .float ⟨0x3FF8000000000000⟩ 53, .fixed (-3) 20, .fixed 2 20, .fixed 12 20,
    .bits [true] 0, .fixed 6 20, .fixed 9 4, .fixed (-3) 20]

/-- Of the nine literals of the sample unit, the clauses of the loop come before its body. The
second -3 has an entry already, and the bit string is the first of the pool. -/
theorem Pool.ofTree_eq_fold_sample : Sample.tree.WellFormed ∧
    (∀ d ∈ Sample.tree.program.demands Sample.table, d.fault? Sample.table = none) ∧
    List.Forall₂ (fun o c => o.constant Sample.table = .ok c)
      (Sample.tree.program.occurrences Sample.table) Sample.constants ∧
    ofTree Sample.table Sample.tree = .ok ⟨[.fixed 0 31, .fixed 1 31, .fixed (-1) 31, .fixed 5 31,
      .float ⟨0x3FF8000000000000⟩ 53, .fixed (-3) 20, .fixed 2 20, .fixed 12 20, .bits [true] 1,
      .fixed 6 20, .fixed 9 4]⟩ := by
  have hwf := Sample.refersBack_tree.wellFormed
  have hmet : ∀ d ∈ Sample.tree.program.demands Sample.table, d.fault? Sample.table = none := by
    decide +kernel
  have hconstants : List.Forall₂ (fun o c => o.constant Sample.table = .ok c)
      (Sample.tree.program.occurrences Sample.table) Sample.constants := by
    decide +kernel
  refine ⟨hwf, hmet, hconstants, ((ofTree_eq_fold Sample.table Sample.tree hwf).1 _).mpr ?_⟩
  exact ⟨hmet, Sample.constants, hconstants, rfl⟩

end Pearl
