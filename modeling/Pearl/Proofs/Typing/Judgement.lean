import Pearl.Proofs.Program.Coverage
import Pearl.Proofs.Walk.Simulation
import Pearl.Typing.Infer

/-! # Judgements of expressions

Typing an expression comes to a judgement that does not depend on the table so far: what is entered,
in order, and the type in the end, unless there is none. An operator finds in the table what was
judged of its operands right before.
-/

namespace Pearl

open Walk

/-! ## Judgements -/

/-- What is entered for an expression and everything below it, and the outcome. -/
structure Judgement where
  log : List (ExprId × Typing)
  outcome : Except Halt Typing

namespace Judgement

def fail (halt : Halt) : Judgement := ⟨[], .error halt⟩

/-- Enter the outcome, if it is good. -/
def conclude (id : ExprId) (outcome : Except Halt Typing) : Judgement :=
  match outcome with
  | .ok r => ⟨[(id, r)], .ok r⟩
  | .error halt => fail halt

def andThen (j : Judgement) (k : Typing → Judgement) : Judgement :=
  match j.outcome with
  | .ok r => ⟨j.log ++ (k r).log, (k r).outcome⟩
  | .error halt => ⟨j.log, .error halt⟩

variable {j : Judgement} {k : Typing → Judgement} {id : ExprId} {outcome : Except Halt Typing}
  {r : Typing}

theorem ok_of_conclude (h : (conclude id outcome).outcome = .ok r) :
    outcome = .ok r ∧ (conclude id outcome).log = [(id, r)] := by
  cases outcome with
  | error halt => cases h
  | ok s =>
    cases h
    exact ⟨rfl, rfl⟩

/-- Two judgements in a row are good only if both are, and then enter what both do. -/
theorem ok_of_andThen (h : (j.andThen k).outcome = .ok r) :
    ∃ s, j.outcome = .ok s ∧ (k s).outcome = .ok r ∧ (j.andThen k).log = j.log ++ (k s).log := by
  unfold andThen at h ⊢
  cases hj : j.outcome with
  | error halt =>
    rw [hj] at h
    cases h
  | ok s =>
    rw [hj] at h
    exact ⟨s, rfl, h, rfl⟩

theorem error_of_conclude {halt : Halt} (h : (conclude id outcome).outcome = .error halt) :
    outcome = .error halt := by
  cases outcome with
  | error halt' => exact h
  | ok s => cases h

/-- Two judgements in a row fail as the first that fails. -/
theorem error_of_andThen {halt : Halt} (h : (j.andThen k).outcome = .error halt) :
    j.outcome = .error halt ∨ ∃ s, j.outcome = .ok s ∧ (k s).outcome = .error halt := by
  unfold andThen at h
  cases hj : j.outcome with
  | error halt' =>
    rw [hj] at h
    exact .inl h
  | ok s =>
    rw [hj] at h
    exact .inr ⟨s, rfl, h⟩

/-- The last entry of a good judgement is its outcome, for the given expression. -/
def EndsAt (j : Judgement) (id : ExprId) : Prop :=
  ∀ r, j.outcome = .ok r → j.log.getLast? = some (id, r)

theorem endsAt_fail (halt : Halt) : (fail halt).EndsAt id := fun _ h => nomatch h

theorem endsAt_conclude : (conclude id outcome).EndsAt id := by
  intro r h
  rw [(ok_of_conclude h).2]
  rfl

theorem EndsAt.andThen (h : ∀ s, (k s).EndsAt id) : (j.andThen k).EndsAt id := by
  intro r hr
  obtain ⟨s, -, hks, hlog⟩ := ok_of_andThen hr
  rw [hlog, List.getLast?_append, h s r hks]
  rfl

end Judgement

namespace TypingTable

/-! ## The judgement of an expression -/

section Judge

variable (c : Context)

def judgeLiteral (site : ExprSite) (value : Literal) : Except Halt Typing :=
  ((value.denote ⟨site.location, site.text⟩ c.precisions).mapError .reported).map fun constant =>
    .ofConstant (literalTy c constant)

def judgeName (site : ExprSite) (ident : String) : Except Halt Typing :=
  match c.cursor.lookup ident with
  | none => .error (.reported ⟨.unknownIdentifier, site.location, ident⟩)
  | some id => match (c.table.symbol? id).bind fun s => symbolTyping id s.kind with
    | none => .error (.reported (.internal site.location ident))
    | some r => .ok r

/-- The type of a sign and a number in a loop bound, none for any other expression. -/
def judgeBound (site : ExprSite) (op : Monadic) (x : Expr) : Except Halt (Option Ty) :=
  if op = .minus ∧ c.inBound then
    match x with
    | .literal inner value =>
      match value.denoteNegated ⟨inner.location, site.text⟩ c.precisions with
      | .ok (some (.fixed v _)) => .ok (some (.fixed (fixedWidth v)))
      | .ok _ => .ok none
      | .error d => .error (.reported d)
    | _ => .ok none
  else .ok none

def judgeRule (site : ExprSite) : Except Violation Ty → Except Halt Ty
  | .ok ty => .ok ty
  | .error v => .error (v.halt site.location site.text)

def judge : Expr → Judgement
  | .dangling _ => .fail .danglingReference
  | .literal site value => .conclude site.id (judgeLiteral c site value)
  | .name site ident => .conclude site.id (judgeName c site ident)
  | .monadic site op x => match judgeBound c site op (x ()) with
    | .error halt => .fail halt
    | .ok (some ty) =>
      ⟨[((x ()).id, .ofConstant ty), (site.id, .ofConstant ty)], .ok (.ofConstant ty)⟩
    | .ok none => (judge (x ())).andThen fun r =>
      .conclude site.id ((judgeRule site (op.result r.ty)).map fun ty => ⟨ty, r.constant, none⟩)
  | .dyadic site op x y => (judge (x ())).andThen fun r => (judge (y ())).andThen fun s =>
    .conclude site.id
      ((judgeRule site (op.result c.table.defaults.durationRatioPrecision r.ty s.ty)).map
        fun ty => ⟨ty, r.constant && s.constant, none⟩)
  | .paren site x => (judge (x ())).andThen fun r => .conclude site.id (.ok r)
  | .attempt site semaphores => .conclude site.id <|
    if semaphores.isEmpty then .error (.reported (.internal site.location site.text))
    else .ok (.runtime (.bit 1))
  | .now site => .conclude site.id (.ok (.runtime .clock))
  | .sizeOf site _ => .conclude site.id (.ok (.runtime (.fixed c.table.defaults.fixedLength)))
  | .taskOf site _ => .conclude site.id (.ok (.runtime .task))
  | .cont site x => (judge (x ())).andThen fun r => .conclude site.id <| match r.ty with
    | .reference target => .ok (.runtime target)
    | _ => .error (.reported ⟨.illegalExpression, site.location, site.text⟩)
  | .slice site kind x y => (judge (x ())).andThen fun _ => (judge (y ())).andThen fun _ =>
    .conclude site.id (.ok (.runtime (match kind with
      | .bit => .bit 1
      | .char => .char 1)))

theorem endsAt_judge (x : Expr) : (judge c x).EndsAt x.id := by
  cases x with
  | dangling => exact Judgement.endsAt_fail _
  | literal | name | attempt | now | sizeOf | taskOf => exact Judgement.endsAt_conclude
  | paren | cont => exact .andThen fun _ => Judgement.endsAt_conclude
  | dyadic | slice => exact .andThen fun _ => .andThen fun _ => Judgement.endsAt_conclude
  | monadic site op x =>
    simp only [judge]
    split
    · exact Judgement.endsAt_fail _
    · intro r h
      cases h
      rfl
    · exact .andThen fun _ => Judgement.endsAt_conclude

end Judge

/-! ## Typing an expression -/

/-- Enter a log in its order. -/
def insertAll (t : TypingTable) (log : List (ExprId × Typing)) : TypingTable :=
  log.foldl (fun t e => t.insert e.1 e.2) t

theorem insertAll_append (t : TypingTable) (log log' : List (ExprId × Typing)) :
    t.insertAll (log ++ log') = (t.insertAll log).insertAll log' := List.foldl_append

theorem get?_insertAll_of_getLast? (t : TypingTable) {log : List (ExprId × Typing)} {id : ExprId}
    {r : Typing} (h : log.getLast? = some (id, r)) : (t.insertAll log).get? id = some r := by
  obtain ⟨before, rfl⟩ := List.getLast?_eq_some_iff.mp h
  rw [insertAll_append]
  exact get?_insert_self _ id r

/-- From a context, an action enters what is judged, and leaves the context as it was. -/
def Judges (c : Context) (act : Infer Unit) (j : Judgement) : Prop :=
  ∀ t, act.runFrom ⟨c, t⟩ = (j.outcome.map fun _ => (), ⟨c, t.insertAll j.log⟩)

/-- From a context, an action has the given outcome and changes nothing. -/
def Reads {α : Type} (c : Context) (act : Infer α) (outcome : Except Halt α) : Prop :=
  ∀ t, act.runFrom ⟨c, t⟩ = (outcome, ⟨c, t⟩)

variable {c : Context} {α : Type} {act act' : Infer Unit} {j j' : Judgement}
  {k : Typing → Judgement} {id : ExprId}

theorem judges_enter (r : Typing) : Judges c (enter id r) (.conclude id (.ok r)) := fun _ => rfl

/-- An action that only reads may come first. -/
theorem Reads.bind {read : Infer α} {outcome : Except Halt α} {next : α → Infer Unit}
    (h : Reads c read outcome) (hok : ∀ a, outcome = .ok a → Judges c (next a) j)
    (herror : ∀ halt, outcome = .error halt → j = .fail halt) : Judges c (read >>= next) j := by
  intro t
  rw [runFrom_bind, h t]
  cases outcome with
  | error halt =>
    rw [herror halt rfl]
    rfl
  | ok a => exact hok a rfl t

theorem Reads.enter {read : Infer α} {outcome : Except Halt α} (h : Reads c read outcome)
    (f : α → Typing) :
    Judges c (read >>= fun a => enter id (f a)) (.conclude id (outcome.map f)) := by
  refine h.bind ?_ ?_
  · rintro a rfl
    exact judges_enter (f a)
  · rintro halt rfl
    rfl

theorem Reads.conclude {read : Infer Typing} {outcome : Except Halt Typing}
    (h : Reads c read outcome) :
    Judges c (read >>= TypingTable.enter id) (.conclude id outcome) := by
  have h' :
      Judges c (read >>= fun r => TypingTable.enter id r) (.conclude id (outcome.map fun r => r)) :=
    h.enter fun r => r
  cases outcome <;> exact h'

theorem Judges.bind (h : Judges c act j) (h' : Judges c act' j') :
    Judges c (act >>= fun _ => act') (j.andThen fun _ => j') := by
  intro t
  rw [runFrom_bind, h t]
  unfold Judgement.andThen
  cases j.outcome with
  | error halt => rfl
  | ok r =>
    rw [insertAll_append]
    exact h' _

/-- What was just judged of an operand is what the table says of it. -/
theorem Judges.knownOr (missing : Expr → Infer Typing) {x : Expr} {next : Typing → Infer Unit}
    (h : Judges c act j) (hx : j.EndsAt x.id) (hnext : ∀ r, Judges c (next r) (k r)) :
    Judges c (act >>= fun _ => knownOr missing x >>= next) (j.andThen k) := by
  intro t
  rw [runFrom_bind, h t]
  unfold Judgement.andThen
  cases hj : j.outcome with
  | error halt => rfl
  | ok r =>
    have hget := get?_insertAll_of_getLast? t (hx r hj)
    have hknown : (TypingTable.knownOr missing x).runFrom ⟨c, t.insertAll j.log⟩ =
        (.ok r, ⟨c, t.insertAll j.log⟩) := by
      simp only [TypingTable.knownOr, runFrom_bind, runFrom_store, hget, runFrom_pure]
    dsimp only [Except.map]
    rw [runFrom_bind, hknown, insertAll_append]
    exact hnext r _

theorem reads_inferLiteral (site : ExprSite) (value : Literal) :
    Reads c (inferLiteral site value) (judgeLiteral c site value) := by
  intro t
  simp only [inferLiteral, judgeLiteral, runFrom_bind, runFrom_context, runFrom_ofExcept]
  cases value.denote ⟨site.location, site.text⟩ c.precisions <;> rfl

theorem reads_inferName (site : ExprSite) (ident : String) :
    Reads c (inferName site ident) (judgeName c site ident) := by
  intro t
  simp only [inferName, judgeName, runFrom_bind, runFrom_context]
  cases c.cursor.lookup ident with
  | none => rfl
  | some id =>
    dsimp only
    cases (c.table.symbol? id).bind fun s => symbolTyping id s.kind <;> rfl

theorem reads_ruled (site : ExprSite) (v : Except Violation Ty) :
    Reads c (ruled site v) (judgeRule site v) := by
  intro t
  cases v <;> rfl

theorem reads_bound (site : ExprSite) (op : Monadic) (x : Expr) :
    Reads c (if op = .minus ∧ c.inBound then negativeBound? site x else pure none)
      (judgeBound c site op x) := by
  intro t
  unfold judgeBound
  split
  · cases x with
    | literal inner value =>
      simp only [negativeBound?, runFrom_bind, runFrom_context, runFrom_ofExcept]
      cases value.denoteNegated ⟨inner.location, site.text⟩ c.precisions with
      | error d => rfl
      | ok constant =>
        cases constant with
        | none => rfl
        | some constant => cases constant <;> rfl
    | _ => rfl
  · rfl

section

variable (missing : Expr → Infer Typing)

/-- Typing under an operator, where the test for a loop bound is one action. -/
theorem inferOr_monadic (site : ExprSite) (op : Monadic) (x : Unit → Expr) :
    inferOr missing (.monadic site op x) = context >>= fun c =>
      (if op = .minus ∧ c.inBound then negativeBound? site (x ()) else pure none) >>= fun
        | some ty => enter (x ()).id (.ofConstant ty) >>= fun _ => enter site.id (.ofConstant ty)
        | none => inferOr missing (x ()) >>= fun _ => knownOr missing (x ()) >>= fun r =>
          ruled site (op.result r.ty) >>= fun ty => enter site.id ⟨ty, r.constant, none⟩ := by
  rw [inferOr]
  congr 1
  funext c
  split <;> rfl

/-- Typing an expression enters what is judged of it. An operand that the table does not know is
never met, so that it does not matter what would be done then. -/
theorem judges_inferOr (x : Expr) : Judges c (inferOr missing x) (judge c x) := by
  induction x with
  | dangling => exact fun _ => rfl
  | literal site value => exact (reads_inferLiteral site value).conclude
  | name site ident => exact (reads_inferName site ident).conclude
  | monadic site op x ih =>
    intro t
    rw [inferOr_monadic, runFrom_bind, runFrom_context]
    refine Reads.bind (reads_bound site op (x ())) ?_ ?_ t
    · intro bound hbound
      simp only [judge, hbound]
      cases bound with
      | some ty => exact fun _ => rfl
      | none =>
        exact (ih ()).knownOr missing (endsAt_judge c _) fun r =>
          (reads_ruled site _).enter fun ty => ⟨ty, r.constant, none⟩
    · intro halt hbound
      simp only [judge, hbound]
  | dyadic site op x y ihx ihy =>
    refine (ihx ()).knownOr missing (endsAt_judge c _) fun r =>
      (ihy ()).knownOr missing (endsAt_judge c _) fun s => ?_
    intro t
    rw [runFrom_bind, runFrom_context]
    exact (reads_ruled site _).enter (fun ty => ⟨ty, r.constant && s.constant, none⟩) t
  | paren site x ih => exact (ih ()).knownOr missing (endsAt_judge c _) judges_enter
  | attempt site semaphores =>
    simp only [inferOr, judge]
    split
    · exact fun _ => rfl
    · exact judges_enter _
  | now | taskOf => exact judges_enter _
  | sizeOf site ident =>
    intro t
    simp only [inferOr, runFrom_bind, runFrom_context]
    exact judges_enter _ t
  | cont site x ih =>
    refine (ih ()).knownOr missing (endsAt_judge c _) fun r => ?_
    cases r.ty with
    | reference target => exact judges_enter _
    | _ => exact fun _ => rfl
  | slice site kind x y ihx ihy => exact (ihx ()).bind ((ihy ()).bind (judges_enter _))

theorem judges_infer (x : Expr) : Judges c (infer x) (judge c x) := judges_inferOr unentered x

end

end TypingTable

end Pearl
