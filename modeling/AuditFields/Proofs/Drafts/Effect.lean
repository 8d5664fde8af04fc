import AuditFields.Proofs.Drafts.Faithful

/-!
# What a task does to an API

A task on workspaces reads types and resources through all drafts and leaves its changes in the
uppermost one. `Realizes` says that this amounts to a function on APIs: on every faithful workspace the
task fails as the function fails on the API that the workspace stands for, and otherwise makes changes
that give the API of the function. The function cannot know how many drafts there are, so a task that
realizes one does the same in a draft (`RealizesAt.inDraft`) as on the API itself.

The lemmas follow the shapes of a task: a change, a read, one part after the other, a loop.
-/

namespace AuditFields

open Schema

variable {σ α β : Type}

/-! ## Tasks that leave the state alone -/

/-- On every state the task has the result, and leaves the state as it is. -/
def Task.Gives (task : Task σ α) (result : Except Failure α) : Prop :=
  ∀ state events, ∃ later, task.run ⟨state, events⟩ = (result, ⟨state, later⟩)

namespace Task

theorem gives_pure (x : α) : (pure x : Task σ α).Gives (.ok x) :=
  fun _ events => ⟨events, rfl⟩

theorem gives_throw (failure : Failure) : (throw failure : Task σ α).Gives (.error failure) :=
  fun _ events => ⟨events, rfl⟩

theorem Gives.bind {task : Task σ α} {next : α → Task σ β} {result : Except Failure α}
    {following : α → Except Failure β} (h : task.Gives result)
    (hnext : ∀ x, (next x).Gives (following x)) :
    (task >>= next).Gives (result >>= following) := by
  intro state events
  obtain ⟨middle, hrun⟩ := h state events
  cases result with
  | error failure => exact ⟨middle, run_bind_of_error hrun⟩
  | ok x =>
    obtain ⟨later, hlater⟩ := hnext x state middle
    refine ⟨later, ?_⟩
    rw [run_bind_of_ok hrun, hlater]
    rfl

theorem gives_report_then {event : Event} {next : Task σ α} {result : Except Failure α}
    (h : next.Gives result) : (report event >>= fun _ => next).Gives result :=
  fun state events => h state (events ++ [event])

theorem gives_foldlM {step : β → α → Task σ β} {following : β → α → Except Failure β}
    (h : ∀ y x, (step y x).Gives (following y x)) (xs : List α) (start : β) :
    (xs.foldlM step start).Gives (xs.foldlM following start) := by
  induction xs generalizing start with
  | nil => exact gives_pure start
  | cons x xs ih => exact (h start x).bind ih

end Task

/-! ## Tasks as functions on APIs -/

/-- On the workspace the task fails with the failure of the outcome, or else makes changes that give
the API of the outcome. -/
def Task.RealizesAt (task : Task Workspace Unit) (workspace : Workspace)
    (outcome : Except Failure Api) : Prop :=
  ∀ events, ∃ result edits later,
    task.run ⟨workspace, events⟩ = (result, ⟨workspace.applyAll edits, later⟩) ∧
      outcome = result.map fun _ => workspace.settled.applyAll edits

/-- On every faithful workspace the task does what the function does to the API. -/
def Task.Realizes (task : Task Workspace Unit) (effect : Api → Except Failure Api) : Prop :=
  ∀ workspace : Workspace, workspace.Faithful → task.RealizesAt workspace (effect workspace.settled)

namespace Task

variable {workspace : Workspace}

theorem realizesAt_pure : (pure () : Task Workspace Unit).RealizesAt workspace (.ok workspace.settled) :=
  fun events => ⟨.ok (), [], events, rfl, rfl⟩

theorem realizesAt_throw (failure : Failure) :
    (throw failure : Task Workspace Unit).RealizesAt workspace (.error failure) :=
  fun events => ⟨.error failure, [], events, rfl, rfl⟩

theorem realizesAt_report (event : Event) :
    (report event : Task Workspace Unit).RealizesAt workspace (.ok workspace.settled) :=
  fun events => ⟨.ok (), [], events ++ [event], rfl, rfl⟩

theorem realizesAt_edit (edit : Edit) :
    (Workspace.edit edit).RealizesAt workspace (.ok (workspace.settled.apply edit)) :=
  fun events => ⟨.ok (), [edit], events, rfl, rfl⟩

theorem realizesAt_state {next : Workspace → Task Workspace Unit} {outcome : Except Failure Api}
    (h : (next workspace).RealizesAt workspace outcome) :
    (state >>= next).RealizesAt workspace outcome :=
  h

theorem RealizesAt.bind {first second : Task Workspace Unit} {outcome : Except Failure Api}
    {effect : Api → Except Failure Api} (hfirst : first.RealizesAt workspace outcome)
    (hfaithful : workspace.Faithful) (hsecond : second.Realizes effect) :
    (first >>= fun _ => second).RealizesAt workspace (outcome >>= effect) := by
  intro events
  obtain ⟨result, edits, middle, hrun, rfl⟩ := hfirst events
  cases result with
  | error failure => exact ⟨.error failure, edits, middle, run_bind_of_error hrun, rfl⟩
  | ok done =>
    obtain ⟨result, further, later, hnext, houtcome⟩ :=
      hsecond _ (hfaithful.applyAll edits) middle
    refine ⟨result, edits ++ further, later, ?_, ?_⟩
    · rw [run_bind_of_ok hrun, hnext, Workspace.applyAll_append]
    · rw [Workspace.settled_applyAll] at houtcome
      rw [Api.applyAll_append, ← houtcome]
      rfl

theorem Gives.bind_realizesAt {first : Task Workspace α} {result : Except Failure α}
    {second : α → Task Workspace Unit} {effect : α → Except Failure Api} (hfirst : first.Gives result)
    (hsecond : ∀ x, (second x).RealizesAt workspace (effect x)) :
    (first >>= second).RealizesAt workspace (result >>= effect) := by
  intro events
  obtain ⟨middle, hrun⟩ := hfirst workspace events
  cases result with
  | error failure => exact ⟨.error failure, [], middle, run_bind_of_error hrun, rfl⟩
  | ok x =>
    obtain ⟨result, edits, later, hnext, houtcome⟩ := hsecond x middle
    exact ⟨result, edits, later, (run_bind_of_ok hrun).trans hnext, houtcome⟩

theorem RealizesAt.reportFailure {task : Task Workspace Unit} {outcome : Except Failure Api}
    (h : task.RealizesAt workspace outcome) (event : Failure → Event) :
    (tryCatch task fun failure => do
      report (event failure)
      throw failure).RealizesAt workspace outcome := by
  intro events
  obtain ⟨result, edits, later, hrun, houtcome⟩ := h events
  cases result with
  | ok done => exact ⟨.ok done, edits, later, run_tryCatch_of_ok hrun, houtcome⟩
  | error failure =>
    exact ⟨.error failure, edits, later ++ [event failure],
      (run_tryCatch_of_error hrun).trans rfl, houtcome⟩

/-- What a task does in a new draft, the committed draft does to the workspace under it. -/
theorem RealizesAt.inDraft {work : Task Workspace Unit} {outcome : Except Failure Api}
    (h : work.RealizesAt workspace.openDraft outcome) :
    (Workspace.inDraft work).RealizesAt workspace outcome := by
  intro events
  obtain ⟨result, edits, later, hrun, houtcome⟩ := h events
  cases result with
  | ok done =>
    have hcommitted : (Workspace.inDraft work).run ⟨workspace, events⟩ = _ :=
      Workspace.inDraft_of_ok hrun
    rw [Workspace.commit_applyAll_openDraft] at hcommitted
    exact ⟨.ok done, edits, _, hcommitted, houtcome⟩
  | error failure =>
    refine ⟨.error failure, [], later, ?_, houtcome⟩
    rw [Workspace.inDraft_of_error hrun, Workspace.discard_applyAll_openDraft]
    rfl

theorem Realizes.inDraft {work : Task Workspace Unit} {effect : Api → Except Failure Api}
    (h : work.Realizes effect) : (Workspace.inDraft work).Realizes effect :=
  fun workspace hfaithful => (h workspace.openDraft hfaithful.openDraft).inDraft

theorem Realizes.bind {first second : Task Workspace Unit} {effect following : Api → Except Failure Api}
    (hfirst : first.Realizes effect) (hsecond : second.Realizes following) :
    (first >>= fun _ => second).Realizes fun api => effect api >>= following :=
  fun workspace hfaithful => (hfirst workspace hfaithful).bind hfaithful hsecond

theorem realizes_forM {work : α → Task Workspace Unit} {effect : α → Api → Except Failure Api}
    (h : ∀ x, (work x).Realizes (effect x)) (xs : List α) :
    (xs.forM work).Realizes fun api => xs.foldlM (fun api x => effect x api) api := by
  induction xs with
  | nil => exact fun _ _ => realizesAt_pure
  | cons x xs ih => exact (h x).bind ih

/-! ## On the API itself -/

theorem Realizes.run_direct_of_ok {task : Task Workspace Unit} {effect : Api → Except Failure Api}
    (h : task.Realizes effect) {api after : Api} (hok : effect api = .ok after) (events : List Event) :
    ∃ later, task.run ⟨.direct api, events⟩ = (.ok (), ⟨.direct after, later⟩) := by
  obtain ⟨result, edits, later, hrun, houtcome⟩ := h (.direct api) trivial events
  rw [Workspace.settled_direct, hok] at houtcome
  cases result with
  | error failure => exact nomatch houtcome
  | ok done =>
    have hafter : after = api.applyAll edits := Except.ok.inj houtcome
    rw [Workspace.applyAll_direct, ← hafter] at hrun
    exact ⟨later, hrun⟩

theorem Realizes.run_inDraft_of_error {work : Task Workspace Unit}
    {effect : Api → Except Failure Api} (h : work.Realizes effect) {api : Api} {failure : Failure}
    (herror : effect api = .error failure) (events : List Event) :
    ∃ later, (Workspace.inDraft work).run ⟨.direct api, events⟩ =
      (.error failure, ⟨.direct api, later⟩) := by
  obtain ⟨result, edits, later, hrun, houtcome⟩ :=
    h (Workspace.direct api).openDraft (Workspace.faithful_direct api).openDraft events
  rw [Workspace.settled_openDraft, Workspace.settled_direct, herror] at houtcome
  cases result with
  | ok done => exact nomatch houtcome
  | error reason =>
    have hdone : (Workspace.inDraft work).run ⟨.direct api, events⟩ = _ :=
      Workspace.inDraft_of_error hrun
    rw [Workspace.discard_applyAll_openDraft, ← Except.error.inj houtcome] at hdone
    exact ⟨later, hdone⟩

/-- What a task gives when it works on the API itself, and the workspace afterwards. -/
def onApi (task : Task Workspace α) (api : Api) : Except Failure α × Workspace :=
  ((task.runOn (.direct api)).1, (task.runOn (.direct api)).2.state)

theorem onApi_of_run {task : Task Workspace α} {api : Api} {result : Except Failure α}
    {workspace : Workspace} {later : List Event}
    (h : task.run ⟨.direct api, []⟩ = (result, ⟨workspace, later⟩)) :
    task.onApi api = (result, workspace) := by
  rw [onApi, runOn, h]

end Task

end AuditFields
