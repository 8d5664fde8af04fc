import Mathlib.Logic.Relation
import AuditFields.Proofs.Template.Running

/-!
# What a template may do to a request

A run of statements is a sequence of changes, each of which resolves the identity or writes one field
that a statement names, and it ends well or with one of two refusals (`Takes`). The changes a run takes
are known from the text of its statements, although which of them it takes depends on the values that
earlier ones have written. What every change keeps is therefore kept by every run, and a run that stops
half-way keeps it too: the claims and the time, the fields with their order, and every value whose
field no statement names.
-/

namespace AuditFields

/-! ## Statements at any depth -/

/-- The statement is one of the statements or stands in the body of one, at any depth. -/
inductive Statement.Among (inner : Statement) : List Statement → Prop where
  | here {statements : List Statement} (h : inner ∈ statements) : Among inner statements
  | inside {statements body : List Statement} {field : String}
      (houter : .ifTrue field body ∈ statements) (h : Among inner body) : Among inner statements

theorem Statement.Among.mono {inner : Statement} {some all : List Statement} (hsub : some ⊆ all)
    (h : inner.Among some) : inner.Among all := by
  cases h with
  | here h => exact .here (hsub h)
  | inside houter h => exact .inside (hsub houter) h

theorem Statement.Among.ifTrue {inner : Statement} {body : List Statement} (h : inner.Among body)
    (field : String) : inner.Among [.ifTrue field body] :=
  .inside List.mem_cons_self h

namespace Run

variable {statements all : List Statement} {run before middle after : Run}

/-! ## Changes -/

/-- A change that statements can make to a run. -/
inductive Change (statements : List Statement) (run : Run) : Run → Prop where
  | resolve (identity : Json) : Change statements run { run with identity := some identity }
  | write {field : String} {operand : Operand} (hput : (Statement.put field operand).Among statements)
      (value : Json) : Change statements run (run.put field value)

/-- A way for a run of statements to end. -/
inductive Ends (statements : List Statement) (run : Run) : Except RequestRefusal Unit → Prop where
  | done : Ends statements run (.ok ())
  | absent (hdemand : Statement.demandIdentity.Among statements) :
      Ends statements run (.error .noIdentity)
  | unsought (hidentity : run.identity = none) : Ends statements run (.error .identityNotSought)

/-- The result is one that statements can lead to. -/
structure Takes (statements : List Statement) (before : Run)
    (result : Except RequestRefusal Unit × Run) : Prop where
  changes : Relation.ReflTransGen (Change statements) before result.2
  ends : Ends statements result.2 result.1

theorem Takes.nothing (run : Run) : Takes statements run (.ok (), run) :=
  ⟨.refl, .done⟩

theorem Takes.mono {result : Except RequestRefusal Unit × Run}
    (hsub : ∀ inner : Statement, inner.Among statements → inner.Among all)
    (h : Takes statements before result) : Takes all before result := by
  obtain ⟨outcome, after⟩ := result
  obtain ⟨hchanges, hends⟩ := h
  refine ⟨Relation.ReflTransGen.mono (fun _ _ hchange => ?_) _ _ hchanges, ?_⟩
  · cases hchange with
    | resolve identity => exact .resolve identity
    | write hput value => exact .write (hsub _ hput) value
  · cases hends with
    | done => exact .done
    | absent hdemand => exact .absent (hsub _ hdemand)
    | unsought hidentity => exact .unsought hidentity

theorem Takes.trans {result : Except RequestRefusal Unit × Run}
    (hfirst : Takes statements before (.ok (), middle)) (hrest : Takes statements middle result) :
    Takes statements before result :=
  ⟨hfirst.changes.trans hrest.changes, hrest.ends⟩

end Run

/-! ## Runs as changes -/

namespace Statement

open Run (Takes)

theorem takes_demandIdentity (run : Run) :
    Takes [.demandIdentity] run (Statement.demandIdentity.eval.run run) := by
  cases hidentity : run.identity with
  | none =>
    rw [run_eval_demandIdentity_of_none hidentity]
    exact ⟨.refl, .unsought hidentity⟩
  | some identity =>
    rw [run_eval_demandIdentity hidentity]
    split
    · exact ⟨.refl, .absent (.here List.mem_cons_self)⟩
    · exact .nothing run

theorem takes_put (field : String) (operand : Operand) (run : Run) :
    Takes [.put field operand] run ((Statement.put field operand).eval.run run) := by
  rcases operand.run_eval_cases run with ⟨value, hvalue⟩ | ⟨hidentity, hrefused⟩
  · rw [run_eval_put_of_ok hvalue]
    exact ⟨.single (.write (.here List.mem_cons_self) value), .done⟩
  · rw [run_eval_put_of_error hrefused]
    exact ⟨.refl, .unsought hidentity⟩

mutual

theorem takes_eval : ∀ (statement : Statement) (run : Run),
    Takes [statement] run (statement.eval.run run)
  | .identify claims fallback, run => by
    rw [run_eval_identify]
    exact ⟨.single (.resolve _), .done⟩
  | .demandIdentity, run => takes_demandIdentity run
  | .put field operand, run => takes_put field operand run
  | .ifTrue field body, run => by
    by_cases h : run.request.input.get? field = some (.bool true)
    · rw [run_eval_ifTrue_of_true h]
      exact (takes_evalAll body run).mono fun _ hinner => hinner.ifTrue field
    · rw [run_eval_ifTrue_of_not_true h]
      exact .nothing run

/-- **A run of statements takes only changes that its statements can make, and ends in one of their
ways.** -/
theorem takes_evalAll : ∀ (statements : List Statement) (run : Run),
    Takes statements run ((evalAll statements).run run)
  | [], run => by
    rw [run_evalAll_nil]
    exact .nothing run
  | statement :: statements, run => by
    have hfirst : Takes (statement :: statements) run (statement.eval.run run) :=
      (takes_eval statement run).mono fun _ hinner =>
        hinner.mono (List.cons_subset_cons statement (List.nil_subset statements))
    rcases hrun : statement.eval.run run with ⟨refusal | _, middle⟩
    · rw [run_evalAll_cons_of_error hrun]
      exact hrun ▸ hfirst
    · rw [run_evalAll_cons_of_ok hrun]
      have hrest := (takes_evalAll statements middle).mono fun _ hinner =>
        hinner.mono (List.subset_cons_self statement statements)
      exact (hrun ▸ hfirst).trans hrest

end

end Statement

/-! ## What every change keeps -/

theorem Entries.names_prefix_put {α : Type} (name : String) (value : α) (entries : Entries α) :
    entries.names <+: (entries.put name value).names := by
  rw [names_put, withName]
  split
  · exact List.prefix_rfl
  · exact List.prefix_append _ _

namespace Run

variable {statements : List Statement} {before after : Run}

/-- What the statements leave alone. -/
structure Confined (statements : List Statement) (before after : Run) : Prop where
  claims : after.request.claims = before.request.claims
  now : after.request.now = before.request.now
  names : before.request.input.names <+: after.request.input.names
  unnamed : ∀ name, (∀ operand, ¬ (Statement.put name operand).Among statements) →
    after.request.input.get? name = before.request.input.get? name
  identity : before.identity.isSome → after.identity.isSome

theorem Confined.refl (run : Run) : Confined statements run run :=
  ⟨rfl, rfl, List.prefix_rfl, fun _ _ => rfl, id⟩

theorem Confined.trans {middle : Run} (hfirst : Confined statements before middle)
    (hrest : Confined statements middle after) : Confined statements before after where
  claims := hrest.claims.trans hfirst.claims
  now := hrest.now.trans hfirst.now
  names := hfirst.names.trans hrest.names
  unnamed name hname := (hrest.unnamed name hname).trans (hfirst.unnamed name hname)
  identity h := hrest.identity (hfirst.identity h)

theorem Change.confined (h : Change statements before after) : Confined statements before after := by
  cases h with
  | resolve identity => exact ⟨rfl, rfl, List.prefix_rfl, fun _ _ => rfl, fun _ => rfl⟩
  | @write field operand hput value =>
    refine ⟨rfl, rfl, Entries.names_prefix_put field value _, fun name hname => ?_, id⟩
    have hne : field ≠ name := fun heq => hname operand (heq ▸ hput)
    exact Entries.get?_put_of_ne hne value _

theorem Confined.of_changes (h : Relation.ReflTransGen (Change statements) before after) :
    Confined statements before after := by
  induction h with
  | refl => exact .refl before
  | tail _ hchange ih => exact ih.trans hchange.confined

end Run

namespace RequestTemplate

theorem evaluate_eq (template : RequestTemplate) (request : Request) :
    template.evaluate request =
      (((Statement.evalAll template.statements).run { request }).1,
        ((Statement.evalAll template.statements).run { request }).2.request) :=
  rfl

/-- Once the first statement has resolved the identity, no statement can find it unresolved. -/
theorem evaluate_ne_identityNotSought {template : RequestTemplate} {claims : List String}
    {fallback : Option String} {rest : List Statement}
    (hfirst : template.statements = .identify claims fallback :: rest) (request : Request) :
    (template.evaluate request).1 ≠ .error .identityNotSought := by
  rw [evaluate_eq, hfirst,
    Statement.run_evalAll_cons_of_ok (Statement.run_eval_identify claims fallback { request })]
  obtain ⟨hchanges, hends⟩ := Statement.takes_evalAll rest
    { request, identity := some (resolvedIdentity request claims fallback) }
  have hidentity := (Run.Confined.of_changes hchanges).identity rfl
  intro houtcome
  rw [houtcome] at hends
  cases hends with
  | unsought hnone => rw [hnone] at hidentity; cases hidentity

theorem evaluate_ne_noIdentity {template : RequestTemplate}
    (hdemand : ¬ Statement.demandIdentity.Among template.statements) (request : Request) :
    (template.evaluate request).1 ≠ .error .noIdentity := by
  rw [evaluate_eq]
  intro houtcome
  have hends := (Statement.takes_evalAll template.statements { request }).ends
  rw [houtcome] at hends
  cases hends with
  | absent hamong => exact hdemand hamong

/-- **Whether a template refuses a request or not, it leaves the claims and the time alone, keeps the
fields of the input in their order with new ones behind them, and changes or adds only values of
fields that one of its statements names.** A template that starts by resolving the identity is never
refused for want of having done so, and one that does not demand an identity never for want of one. -/
theorem evaluate_confined (template : RequestTemplate) (request : Request) :
    ∃ outcome after, template.evaluate request = (outcome, after) ∧
      after.claims = request.claims ∧ after.now = request.now ∧
      request.input.names <+: after.input.names ∧
      (∀ name, after.input.get? name ≠ request.input.get? name →
        ∃ operand, (Statement.put name operand).Among template.statements) ∧
      ((∃ claims fallback rest, template.statements = .identify claims fallback :: rest) →
        outcome ≠ .error .identityNotSought) ∧
      (¬ Statement.demandIdentity.Among template.statements → outcome ≠ .error .noIdentity) := by
  have hconfined := Run.Confined.of_changes
    (Statement.takes_evalAll template.statements { request }).changes
  refine ⟨_, _, rfl, hconfined.claims, hconfined.now, hconfined.names, fun name hchanged => ?_, ?_,
    fun hdemand => evaluate_ne_noIdentity hdemand request⟩
  · exact Classical.not_forall_not.mp fun hunnamed => hchanged (hconfined.unnamed name hunnamed)
  · rintro ⟨claims, fallback, rest, hfirst⟩
    exact evaluate_ne_identityNotSought hfirst request

/-- A refused request keeps what was written before the refusal. -/
example : ({ block := "", statements := [.identify [] none, .put "at" .now, .demandIdentity] } :
    RequestTemplate).evaluate { now := 7 } =
      (.error .noIdentity, { input := [("at", .int 7)], now := 7 }) := by
  rfl

end RequestTemplate

end AuditFields
