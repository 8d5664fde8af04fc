import AuditFields.Event
import AuditFields.Failure

/-!
# Tasks

A task works on a state, reports events, and gives a result or fails. What it did to the state and
reported before it failed stays; who wants a failure to undo the work has to say so.
-/

namespace AuditFields

/-- The state of a task, with the events reported so far. -/
structure Progress (σ : Type) where
  state : σ
  events : List Event := []

abbrev Task (σ α : Type) := ExceptT Failure (StateM (Progress σ)) α

namespace Task

variable {σ α β : Type}

def report (event : Event) : Task σ Unit :=
  modify fun progress => { progress with events := progress.events ++ [event] }

def state : Task σ σ := do
  return (← get).state

def update (f : σ → σ) : Task σ Unit :=
  modify fun progress => { progress with state := f progress.state }

/-- Runs a task on a state: the result or the failure, the state afterwards, and the events. -/
def runOn (task : Task σ α) (state : σ) : Except Failure α × Progress σ :=
  task.run { state }

/-! ## Running -/

@[simp]
theorem run_pure (x : α) (progress : Progress σ) :
    (pure x : Task σ α).run progress = (.ok x, progress) := rfl

@[simp]
theorem run_throw (failure : Failure) (progress : Progress σ) :
    (throw failure : Task σ α).run progress = (.error failure, progress) := rfl

@[simp]
theorem run_report (event : Event) (progress : Progress σ) :
    (report event : Task σ Unit).run progress =
      (.ok (), { progress with events := progress.events ++ [event] }) := rfl

@[simp]
theorem run_state (progress : Progress σ) :
    (state : Task σ σ).run progress = (.ok progress.state, progress) := rfl

@[simp]
theorem run_update (f : σ → σ) (progress : Progress σ) :
    (update f).run progress = (.ok (), { progress with state := f progress.state }) := rfl

theorem run_bind_of_ok {task : Task σ α} {next : α → Task σ β} {progress after : Progress σ} {x : α}
    (h : task.run progress = (.ok x, after)) :
    (task >>= next).run progress = (next x).run after := by
  show ExceptT.bindCont next (task.run progress).1 (task.run progress).2 = _
  rw [h]
  rfl

theorem run_bind_of_error {task : Task σ α} {next : α → Task σ β} {progress after : Progress σ}
    {failure : Failure} (h : task.run progress = (.error failure, after)) :
    (task >>= next).run progress = (.error failure, after) := by
  show ExceptT.bindCont next (task.run progress).1 (task.run progress).2 = _
  rw [h]
  rfl

theorem run_tryCatch_of_ok {task : Task σ α} {handle : Failure → Task σ α}
    {progress after : Progress σ} {x : α} (h : task.run progress = (.ok x, after)) :
    (tryCatch task handle).run progress = (.ok x, after) := by
  change task progress = _ at h
  simp only [tryCatch, tryCatchThe, MonadExceptOf.tryCatch, ExceptT.tryCatch, ExceptT.run,
    ExceptT.mk, bind, StateT.bind]
  rw [h]
  rfl

theorem run_tryCatch_of_error {task : Task σ α} {handle : Failure → Task σ α}
    {progress after : Progress σ} {failure : Failure}
    (h : task.run progress = (.error failure, after)) :
    (tryCatch task handle).run progress = (handle failure).run after := by
  change task progress = _ at h
  simp only [tryCatch, tryCatchThe, MonadExceptOf.tryCatch, ExceptT.tryCatch, ExceptT.run,
    ExceptT.mk, bind, StateT.bind]
  rw [h]

end Task

end AuditFields
