import AuditFields.Proofs.Entries
import AuditFields.Proofs.Result
import AuditFields.Template.Evaluation

/-!
# Runs of statements

What a statement of a template does to a run, and what lists of statements do one after the other. A
run goes on with the run that the statement left, or stops there if the statement refused the request.
Once the identity is resolved nothing is refused for want of it, so a list of writes amounts to the
values of its operands put into the input.
-/

namespace AuditFields

/-! ## Operands -/

/-- The value of an operand when the identity is known. -/
def Operand.value (now : Int) (identity : Json) : Operand → Json
  | .now => .int now
  | .identity => identity
  | .bool value => .bool value

theorem Running.run_identity {run : Run} {identity : Json} (h : run.identity = some identity) :
    Running.identity.run run = (.ok identity, run) := by
  unfold Running.identity
  rw [Stateful.run_bind_of_ok (rfl : (get : Running Run).run run = (.ok run, run)), h]
  rfl

theorem Running.run_identity_of_none {run : Run} (h : run.identity = none) :
    Running.identity.run run = (.error .identityNotSought, run) := by
  unfold Running.identity
  rw [Stateful.run_bind_of_ok (rfl : (get : Running Run).run run = (.ok run, run)), h]
  rfl

theorem Operand.run_eval {run : Run} {identity : Json} (h : run.identity = some identity)
    (operand : Operand) :
    operand.eval.run run = (.ok (operand.value run.request.now identity), run) := by
  cases operand with
  | identity => exact Running.run_identity h
  | _ => rfl

theorem Operand.run_eval_cases (operand : Operand) (run : Run) :
    (∃ value, operand.eval.run run = (.ok value, run)) ∨
      run.identity = none ∧ operand.eval.run run = (.error .identityNotSought, run) := by
  cases operand with
  | identity =>
    cases h : run.identity with
    | none => exact Or.inr ⟨rfl, Running.run_identity_of_none h⟩
    | some identity => exact Or.inl ⟨identity, Running.run_identity h⟩
  | _ => exact Or.inl ⟨_, rfl⟩

/-! ## Statements -/

namespace Run

/-- The run with fields of the input written one after the other. -/
def putAll (fields : List (String × Json)) (run : Run) : Run :=
  { run with request := { run.request with input := run.request.input.putAll fields } }

end Run

namespace Statement

theorem run_eval_identify (claims : List String) (fallback : Option String) (run : Run) :
    (Statement.identify claims fallback).eval.run run =
      (.ok (), { run with identity := some (resolvedIdentity run.request claims fallback) }) := by
  rw [eval]
  rfl

theorem run_eval_demandIdentity {run : Run} {identity : Json} (h : run.identity = some identity) :
    Statement.demandIdentity.eval.run run =
      (if isAbsentIdentity identity then .error .noIdentity else .ok (), run) := by
  rw [eval, Stateful.run_bind_of_ok (Running.run_identity h)]
  split <;> rfl

theorem run_eval_demandIdentity_of_none {run : Run} (h : run.identity = none) :
    Statement.demandIdentity.eval.run run = (.error .identityNotSought, run) := by
  rw [eval, Stateful.run_bind_of_error (Running.run_identity_of_none h)]

theorem run_eval_put_of_ok {operand : Operand} {run : Run} {value : Json}
    (h : operand.eval.run run = (.ok value, run)) (field : String) :
    (Statement.put field operand).eval.run run = (.ok (), run.put field value) := by
  rw [eval, Stateful.run_bind_of_ok h]
  rfl

theorem run_eval_put_of_error {operand : Operand} {run : Run} {refusal : RequestRefusal}
    (h : operand.eval.run run = (.error refusal, run)) (field : String) :
    (Statement.put field operand).eval.run run = (.error refusal, run) := by
  rw [eval, Stateful.run_bind_of_error h]

theorem run_eval_put {run : Run} {identity : Json} (h : run.identity = some identity)
    (field : String) (operand : Operand) :
    (Statement.put field operand).eval.run run =
      (.ok (), run.put field (operand.value run.request.now identity)) :=
  run_eval_put_of_ok (Operand.run_eval h operand) field

theorem run_eval_ifTrue_of_true {field : String} {run : Run}
    (h : run.request.input.get? field = some (.bool true)) (body : List Statement) :
    (Statement.ifTrue field body).eval.run run = (evalAll body).run run := by
  rw [eval, Stateful.run_bind_of_ok (rfl : (get : Running Run).run run = (.ok run, run)), if_pos h]

theorem run_eval_ifTrue_of_not_true {field : String} {run : Run}
    (h : run.request.input.get? field ≠ some (.bool true)) (body : List Statement) :
    (Statement.ifTrue field body).eval.run run = (.ok (), run) := by
  rw [eval, Stateful.run_bind_of_ok (rfl : (get : Running Run).run run = (.ok run, run)), if_neg h]
  rfl

/-! ## Lists of statements -/

theorem run_evalAll_nil (run : Run) : (evalAll []).run run = (.ok (), run) := by
  rw [evalAll]
  rfl

theorem run_evalAll_cons_of_ok {statement : Statement} {run after : Run}
    (h : statement.eval.run run = (.ok (), after)) (statements : List Statement) :
    (evalAll (statement :: statements)).run run = (evalAll statements).run after := by
  rw [evalAll, Stateful.run_bind_of_ok h]

theorem run_evalAll_cons_of_error {statement : Statement} {run after : Run}
    {refusal : RequestRefusal} (h : statement.eval.run run = (.error refusal, after))
    (statements : List Statement) :
    (evalAll (statement :: statements)).run run = (.error refusal, after) := by
  rw [evalAll, Stateful.run_bind_of_error h]

theorem run_evalAll_append_of_ok {first : List Statement} {run after : Run}
    (h : (evalAll first).run run = (.ok (), after)) (second : List Statement) :
    (evalAll (first ++ second)).run run = (evalAll second).run after := by
  induction first generalizing run with
  | nil =>
    rw [run_evalAll_nil] at h
    obtain rfl := (Prod.mk.inj h).2
    rfl
  | cons statement statements ih =>
    rw [evalAll] at h
    obtain ⟨_, middle, hstatement, hrest⟩ := Stateful.run_bind_eq_ok h
    rw [List.cons_append, run_evalAll_cons_of_ok hstatement, ih hrest]

theorem run_evalAll_append_of_error {first : List Statement} {run after : Run}
    {refusal : RequestRefusal} (h : (evalAll first).run run = (.error refusal, after))
    (second : List Statement) :
    (evalAll (first ++ second)).run run = (.error refusal, after) := by
  induction first generalizing run with
  | nil =>
    rw [run_evalAll_nil] at h
    cases (Prod.mk.inj h).1
  | cons statement statements ih =>
    rw [evalAll] at h
    rcases Stateful.run_bind_eq_error h with hstatement | ⟨_, middle, hstatement, hrest⟩
    · exact run_evalAll_cons_of_error hstatement _
    · rw [List.cons_append, run_evalAll_cons_of_ok hstatement, ih hrest]

theorem run_evalAll_puts {run : Run} {identity : Json} (h : run.identity = some identity)
    (writes : List (String × Operand)) :
    (evalAll (writes.map fun write => .put write.1 write.2)).run run =
      (.ok (), run.putAll
        (writes.map fun write => (write.1, write.2.value run.request.now identity))) := by
  induction writes generalizing run with
  | nil => exact run_evalAll_nil run
  | cons write writes ih =>
    have hidentity : (run.put write.1 (write.2.value run.request.now identity)).identity =
        some identity := h
    rw [List.map_cons, run_evalAll_cons_of_ok (run_eval_put h write.1 write.2), ih hidentity]
    rfl

end Statement

end AuditFields
