import Pearl.Proofs.Constant.Fold
import Pearl.Proofs.SymbolTable.Growth
import Pearl.Proofs.Typing.Faults
import Pearl.Proofs.Typing.LiteralPrecision

/-! # What can go wrong once there is a pool

The pool of a unit is there only if every scope and variable was found and every literal could be
read. What is left for the types are violations of the rules, unknown names, and expressions that
stand for nothing that has a value.
-/

namespace Pearl

open Walk

/-! ## Expressions whose literals can be read -/

/-- Every literal of the expression has a constant. -/
def Expr.Readable (table : SymbolTable) (scope : ScopeId) (place : ExprPlace) (x : Expr) : Prop :=
  ∀ o ∈ x.occurrences scope place, ∃ k, o.constant table = .ok k

namespace Expr.Readable

variable {table : SymbolTable} {scope : ScopeId} {place : ExprPlace} {site inner : ExprSite}
  {value : Literal}

theorem denote (h : (Expr.literal site value).Readable table scope place) :
    ∃ k, value.denote ⟨site.location, site.text⟩ (place.precisions table scope) = .ok k := by
  obtain ⟨k, hk⟩ := h _ (List.mem_singleton_self _)
  rw [Occurrence.constant_unsigned] at hk
  exact ⟨k, hk⟩

/-- A number that can be read with its sign can be read without it. -/
theorem denoteNegated {x : Unit → Expr}
    (h : (Expr.monadic site .minus x).Readable table scope place)
    (hx : x () = .literal inner value) :
    (∃ k?, value.denoteNegated ⟨inner.location, site.text⟩ (place.precisions table scope) =
        .ok k?) ∧
      (x ()).Readable table scope place := by
  obtain ⟨k, hk⟩ := h ⟨scope, place, some site, inner, value⟩ (by
    rw [Expr.occurrences_minus_literal hx]
    exact List.mem_singleton_self _)
  constructor
  · rw [Occurrence.constant_signed] at hk
    split at hk
    · exact ⟨_, ‹_›⟩
    · exact ⟨_, ‹_›⟩
    · cases hk
  · obtain ⟨k', hk', -⟩ := bind_eq_ok.mp hk
    rw [hx]
    intro o ho
    rw [List.mem_singleton.mp ho, Occurrence.constant_unsigned]
    exact ⟨k', Literal.denote_of_site _ hk'⟩

theorem operand {x y : Expr} (h : x.Readable table scope place) (hy : y ∈ x.operands) :
    y.Readable table scope place := by
  cases x with
  | dangling | literal | name | attempt | now | sizeOf | taskOf => cases hy
  | monadic site op x =>
    rw [List.mem_singleton.mp hy]
    rcases Expr.minus_literal_or op (x ()) with ⟨rfl, inner, value, hx⟩ | hx
    · exact (h.denoteNegated hx).2
    · unfold Readable at h
      rw [Expr.occurrences_monadic hx] at h
      exact h
  | paren site x | cont site x =>
    rw [List.mem_singleton.mp hy]
    exact h
  | dyadic site op x y | slice site kind x y =>
    obtain ⟨hfirst, hsecond⟩ := List.forall_mem_append.mp h
    rcases List.mem_pair.mp hy with rfl | rfl
    · exact hfirst
    · exact hsecond

theorem part {x y : Expr} (h : x.Readable table scope place) (hy : x.Part y) :
    y.Readable table scope place := by
  induction hy with
  | refl => exact h
  | tail _ hz ih => exact ih.operand hz

end Expr.Readable

/-! ## Faults that are left -/

/-- The expression stands for nothing that has a value, and the diagnostic tells so: a name of a
symbol that is neither a variable nor a procedure with a result, or an attempt at no semaphore. -/
def Expr.Valueless (table : SymbolTable) (scope : ScopeId) (d : Diagnostic) : Expr → Prop
  | .name site ident => d = .internal site.location ident ∧
      ∃ id s, table.lookup scope ident = some id ∧ table.symbol? id = some s ∧
        (∀ ty inv, s.kind ≠ .variable ty inv) ∧ ∀ inner ty, s.kind ≠ .procedure inner (some ty)
  | .attempt site semaphores => d = .internal site.location site.text ∧ semaphores = []
  | _ => False

namespace TypingTable

theorem kind_of_symbolTyping_eq_none {id : SymbolId} {kind : SymbolKind}
    (h : symbolTyping id kind = none) :
    (∀ ty inv, kind ≠ .variable ty inv) ∧ ∀ inner ty, kind ≠ .procedure inner (some ty) := by
  constructor
  · rintro ty inv rfl
    cases h
  · rintro inner ty rfl
    cases h

/-- Where the literals of an expression can be read, it fails for other reasons only, and is without
a value where the analysis itself is blamed. -/
theorem FailsAt.of_readable {c : Context} {place : ExprPlace} {x : Expr} {d : Diagnostic}
    (hbound : c.table.Bound) (hc : c.precisions = place.precisions c.table c.scope)
    (hx : x.Readable c.table c.scope place) (h : FailsAt c x (.reported d)) :
    d.complaint ≠ .numberOutOfRange ∧ d.complaint ≠ .valueOutOfBounds ∧
      (d.complaint = .internalCompilerError → x.Valueless c.table c.scope d) := by
  generalize hhalt : Halt.reported d = halt at h
  cases h with
  | dangling => cases hhalt
  | literal h =>
    obtain ⟨k, hk⟩ := hx.denote
    rw [hc, hk] at h
    cases h
  | bound hlit h =>
    obtain ⟨⟨k, hk⟩, -⟩ := hx.denoteNegated hlit
    rw [hc, hk] at h
    cases h
  | unknown h =>
    cases hhalt
    exact ⟨nofun, nofun, nofun⟩
  | valueless hid h =>
    cases hhalt
    obtain ⟨s, hs⟩ := hbound.exists_symbol?_of_lookup hid
    rw [hs] at h
    exact ⟨nofun, nofun, fun _ => ⟨rfl, _, s, hid, hs, kind_of_symbolTyping_eq_none h⟩⟩
  | attempt site =>
    cases hhalt
    exact ⟨nofun, nofun, fun _ => ⟨rfl, rfl⟩⟩
  | @rule _ _ v =>
    cases v with
    | lengthOverflow => cases hhalt
    | illegalExpression | typeMismatch | notYetImplemented =>
      cases hhalt
      exact ⟨nofun, nofun, nofun⟩

/-- What an operand was typed as is found in the table right after. -/
theorem known_of_infer {x : Expr} {w w' : Walker TypingTable}
    (h : (infer x).runFrom w = (.ok (), w')) : ∃ r, (known x).runFrom w' = (.ok r, w') := by
  obtain ⟨c, t⟩ := w
  rw [judges_infer x t] at h
  obtain ⟨hok, rfl⟩ := Prod.mk.inj h
  obtain ⟨r, hr, -⟩ := map_eq_ok.mp hok
  have hget := get?_insertAll_of_getLast? t (endsAt_judge c x r hr)
  exact ⟨r, by simp only [known, knownOr, runFrom_bind, runFrom_store, hget, runFrom_pure]⟩

end TypingTable

/-- In a program without dangling nodes that has a pool, everything that has to be found is found,
and every literal can be read. -/
theorem Pool.resolved_and_readable {table : SymbolTable} {p : Program} {pool : Pool}
    (hwhole : ∀ e ∈ p.agenda table, e.Whole) (h : ofProgram table p = .ok pool) :
    (∀ r, .resolve r ∈ p.agenda table → r.outcome table = .ok ()) ∧
      ∀ scope place x, .visit scope place x ∈ p.agenda table → x.Readable table scope place := by
  have hmet := ((ofProgram_eq_ok_iff table hwhole pool).mp h).1
  constructor
  · intro r hr
    exact Errand.passed_of_demands (hwhole _ hr) fun d hd => hmet d (List.mem_flatMap_of_mem hr hd)
  · intro scope place x hx o ho
    have hfault := hmet (.literal o) (List.mem_flatMap_of_mem hx (List.mem_map_of_mem ho))
    simp only [Demand.fault?] at hfault
    split at hfault
    · exact ⟨_, ‹_›⟩
    · cases hfault

namespace TypingTable

/-- A unit that has a pool, over a table made by steps, has all scopes and variables that it needs,
and no operand is missed. Typing it fails for no literal, and blames the analysis itself only for a
part that stands for nothing with a value. -/
theorem faults_after_pool (defaults : LanguageDefaults) (history : List SymbolTable.Step)
    (table : SymbolTable) (htable : table = (SymbolTable.new defaults).run history) (tree : Tree)
    (hwf : tree.WellFormed) (pool : Pool) (hpool : Pool.ofTree table tree = .ok pool) :
    (∀ r, .resolve r ∈ tree.program.agenda table → r.outcome table = .ok ()) ∧
      (∀ x w w', (infer x).runFrom w = (.ok (), w') → ∃ r, (known x).runFrom w' = (.ok r, w')) ∧
      ∀ d, ofTree table tree = .error (.reported d) →
        d.complaint ≠ .numberOutOfRange ∧ d.complaint ≠ .valueOutOfBounds ∧
          (d.complaint = .internalCompilerError → ∃ scope place x y,
            .visit scope place x ∈ tree.program.agenda table ∧ x.Part y ∧
              y.Valueless table scope d) := by
  have hbound : table.Bound := htable ▸ SymbolTable.bound_run defaults history
  obtain ⟨hresolved, hreadable⟩ :=
    Pool.resolved_and_readable (hwf.whole_of_mem_agenda table) hpool
  refine ⟨hresolved, fun x w w' => known_of_infer, fun d hd => ?_⟩
  obtain ⟨e, he, hfails⟩ := ofProgram_eq_error hd
  cases e with
  | missing => cases hfails
  | resolve r =>
    rw [Errand.typed, hresolved r he] at hfails
    cases hfails
  | visit scope place x =>
    have hjudge := map_eq_error.mp hfails
    unfold judgeAt at hjudge
    split at hjudge
    · rename_i c hframe
      have hcursor := cursor_of_frame hframe
      have htable : c.table = table := congrArg Cursor.table hcursor
      have hscope : c.scope = scope := congrArg Cursor.current hcursor
      have hc := (frame_eq hframe).1
      have hx := hreadable scope place x he
      obtain ⟨y, hy, hat⟩ := exists_failsAt_of_judge hjudge
      subst htable hscope
      obtain ⟨hrange, hbounds, hvalueless⟩ := hat.of_readable hbound hc (hx.part hy)
      exact ⟨hrange, hbounds, fun hinternal => ⟨_, place, x, y, he, hy, hvalueless hinternal⟩⟩
    · rename_i d' hframe
      cases hjudge
      have hunknown := complaint_of_frame hframe
      simp [hunknown]

end TypingTable

/-! ## A unit with a name of no value

A task adds -3 and a procedure that has no result.
-/

namespace Sample

def valuelessHistory : List SymbolTable.Step :=
  [.module "m", .procedure ⟨1⟩ "p" none, .task ⟨1⟩ "t" true false]

def valuelessTree : Tree where
  modules := [⟨"m", [.procedure "p" [] .unknown, .task "t" none [⟨0⟩] .unknown], .unknown⟩]
  exprs := #[⟨.literal (.fixed "3" none), .unknown, "3"⟩, ⟨.monadic .minus ⟨0⟩, .unknown, "-3"⟩,
    ⟨.name "p", .unknown, "p"⟩, ⟨.dyadic .add ⟨1⟩ ⟨2⟩, .unknown, "-3 + p"⟩]
  stmts := #[⟨.eval ⟨3⟩, .unknown⟩]

theorem refersBack_valuelessTree : valuelessTree.RefersBack := by decide

end Sample

/-- The literal of the unit is pooled, and the name is blamed when the sum is typed. -/
theorem TypingTable.faults_after_pool_valueless :
    ∃ table, table = (SymbolTable.new {}).run Sample.valuelessHistory ∧
      Sample.valuelessTree.WellFormed ∧
      (∃ pool, Pool.ofTree table Sample.valuelessTree = .ok pool) ∧
      ofTree table Sample.valuelessTree = .error (.reported (.internal .unknown "p")) ∧
      ∃ scope place x y, .visit scope place x ∈ Sample.valuelessTree.program.agenda table ∧
        x.Part y ∧ y.Valueless table scope (.internal .unknown "p") := by
  have hwf := Sample.refersBack_valuelessTree.wellFormed
  obtain ⟨pool, hpool⟩ : ∃ pool,
      Pool.ofTree ((SymbolTable.new {}).run Sample.valuelessHistory) Sample.valuelessTree =
        .ok pool :=
    exists_eq_ok_of_toBool (by decide)
  have herror : ofTree ((SymbolTable.new {}).run Sample.valuelessHistory) Sample.valuelessTree =
      .error (.reported (.internal .unknown "p")) := by
    decide
  refine ⟨_, rfl, hwf, ⟨pool, hpool⟩, herror, ?_⟩
  have hfaults :=
    faults_after_pool {} Sample.valuelessHistory _ rfl Sample.valuelessTree hwf pool hpool
  exact (hfaults.2.2 _ herror).2.2 rfl

end Pearl
