import AuditFields.Proofs.Audit.Effect

/-!
# Auditing in sequence

Auditing all annotated types happens in a draft, and the work on each of them in a draft over that one.
Seen from the API this is the same as auditing the types one after the other on the API itself, except
that a failure leaves nothing of what was done before it. Both sides fold the same function over the
annotated types (`targetsEffect`), so they agree on every read and on the first failure.
-/

namespace AuditFields.Audit

open Schema

/-- What the annotations of types ask for, one type after the other, each in a draft of its own. -/
def auditEach (config : Config) (targets : List (ObjectType × Directive)) : Task Workspace Unit :=
  targets.forM fun target => auditType config target.1 target.2

theorem realizes_auditEach (config : Config) (targets : List (ObjectType × Directive)) :
    (auditEach config targets).Realizes (targetsEffect config targets) :=
  Task.realizes_forM (realizes_auditType config) targets

/-! ## One type on the API itself -/

theorem run_auditType_of_error {config : Config} {target : ObjectType × Directive} {api : Api}
    {failure : Failure} (h : targetEffect config target api = .error failure) (events : List Event) :
    ∃ later, (auditType config target.1 target.2).run ⟨.direct api, events⟩ =
      (.error failure, ⟨.direct api, later⟩) := by
  obtain ⟨checked, hrequire⟩ := gives_requireDirectives target.1 (Workspace.direct api) events
  obtain ⟨resolved, hsettings⟩ := Settings.gives_ofDirective target.2 (Workspace.direct api) checked
  rw [targetEffect] at h
  cases hcheck : checkDirectives target.1 with
  | error reason =>
    rw [hcheck] at h hrequire
    obtain rfl := Except.error.inj h
    exact ⟨checked, Task.run_bind_of_error hrequire⟩
  | ok done =>
    rw [hcheck] at h hrequire
    cases hread : Settings.read target.2 with
    | error reason =>
      rw [hread] at h hsettings
      obtain rfl := Except.error.inj h
      exact ⟨resolved, (Task.run_bind_of_ok hrequire).trans (Task.run_bind_of_error hsettings)⟩
    | ok settings =>
      rw [hread] at h hsettings
      obtain ⟨later, hsteps⟩ :=
        (realizes_steps config settings target.1.name).run_inDraft_of_error h resolved
      exact ⟨later,
        ((Task.run_bind_of_ok hrequire).trans (Task.run_bind_of_ok hsettings)).trans hsteps⟩

/-! ## All types -/

theorem realizes_reportedAll (config : Config) (targets : List (ObjectType × Directive)) :
    (targets.forM (auditReported config)).Realizes (targetsEffect config targets) :=
  Task.realizes_forM (realizes_auditReported config) targets

/-- Auditing an API is its work in a draft, after a report if there is nothing to do. -/
theorem run_auditAll (config : Config) (api : Api) :
    ∃ events, (auditAll config).run ⟨.direct api, []⟩ =
      (do
        Workspace.inDraft ((annotated api.schema).forM (auditReported config))
        return (annotated api.schema).map (·.1.name) : Task Workspace (List String)).run
        ⟨.direct api, events⟩ := by
  unfold auditAll
  rw [Task.run_bind_of_ok (Task.run_state _)]
  dsimp only [Workspace.api]
  by_cases hempty : (annotated api.schema).isEmpty
  · simp only [hempty, if_true]
    exact ⟨[.noneAnnotated], rfl⟩
  · simp only [hempty]
    exact ⟨[], rfl⟩

theorem onApi_auditAll_of_ok {config : Config} {api after : Api}
    (h : targetsEffect config (annotated api.schema) api = .ok after) :
    (auditAll config).onApi api = (.ok ((annotated api.schema).map (·.1.name)), .direct after) := by
  obtain ⟨events, hrun⟩ := run_auditAll config api
  obtain ⟨later, hdraft⟩ := (realizes_reportedAll config _).inDraft.run_direct_of_ok h events
  exact Task.onApi_of_run (hrun.trans ((Task.run_bind_of_ok hdraft).trans (Task.run_pure _ _)))

theorem exists_onApi_auditAll_of_isOk (config : Config) (api : Api)
    (h : (targetsEffect config (annotated api.schema) api).isOk = true) :
    ∃ names after, (auditAll config).onApi api = (.ok names, .direct after) := by
  obtain ⟨after, hafter⟩ := Except.exists_of_isOk h
  exact ⟨_, after, onApi_auditAll_of_ok hafter⟩

theorem onApi_auditAll_of_error {config : Config} {api : Api} {failure : Failure}
    (h : targetsEffect config (annotated api.schema) api = .error failure) :
    (auditAll config).onApi api = (.error failure, .direct api) := by
  obtain ⟨events, hrun⟩ := run_auditAll config api
  obtain ⟨later, hdraft⟩ := (realizes_reportedAll config _).run_inDraft_of_error h events
  exact Task.onApi_of_run (hrun.trans (Task.run_bind_of_error hdraft))

theorem targetsEffect_of_onApi_auditAll {config : Config} {api after : Api} {names : List String}
    (h : (auditAll config).onApi api = (.ok names, .direct after)) :
    targetsEffect config (annotated api.schema) api = .ok after := by
  cases heffect : targetsEffect config (annotated api.schema) api with
  | error failure =>
    rw [onApi_auditAll_of_error heffect] at h
    cases (Prod.mk.inj h).1
  | ok result =>
    rw [onApi_auditAll_of_ok heffect] at h
    cases (Prod.mk.inj h).2
    rfl

/-! ## The first failure -/

theorem targetsEffect_cases (config : Config) (targets : List (ObjectType × Directive)) (api : Api) :
    (∃ after, targetsEffect config targets api = .ok after) ∨
    ∃ failure before target rest between, targets = before ++ target :: rest ∧
      targetsEffect config before api = .ok between ∧
      targetEffect config target between = .error failure ∧
      targetsEffect config targets api = .error failure := by
  induction targets generalizing api with
  | nil => exact Or.inl ⟨api, rfl⟩
  | cons first others ih =>
    have hcons : ∀ after, targetEffect config first api = .ok after → ∀ tail,
        targetsEffect config (first :: tail) api = targetsEffect config tail after := by
      intro after hfirst tail
      show targetEffect config first api >>= _ = _
      rw [hfirst]
      rfl
    cases hfirst : targetEffect config first api with
    | error failure =>
      refine Or.inr ⟨failure, [], first, others, api, rfl, rfl, hfirst, ?_⟩
      show targetEffect config first api >>= _ = _
      rw [hfirst]
      rfl
    | ok next =>
      rcases ih next with ⟨after, hafter⟩ | ⟨failure, before, target, rest, between, rfl, h, hfails, hall⟩
      · exact Or.inl ⟨after, (hcons next hfirst others).trans hafter⟩
      · exact Or.inr ⟨failure, first :: before, target, rest, between, rfl,
          (hcons next hfirst before).trans h, hfails, (hcons next hfirst _).trans hall⟩

theorem onApi_auditEach_of_error {config : Config} {api between : Api} {failure : Failure}
    {target : ObjectType × Directive} {before rest : List (ObjectType × Directive)}
    (hbefore : targetsEffect config before api = .ok between)
    (hfails : targetEffect config target between = .error failure) :
    (auditEach config (before ++ target :: rest)).onApi api = (.error failure, .direct between) := by
  obtain ⟨events, hrun⟩ := (realizes_auditEach config before).run_direct_of_ok hbefore []
  obtain ⟨later, hfailed⟩ := run_auditType_of_error hfails events
  have hsplit : auditEach config (before ++ target :: rest) =
      auditEach config before >>= fun _ =>
        auditType config target.1 target.2 >>= fun _ => auditEach config rest := by
    unfold auditEach
    rw [List.forM_eq_forM, List.forM_append]
    rfl
  rw [hsplit]
  exact Task.onApi_of_run ((Task.run_bind_of_ok hrun).trans (Task.run_bind_of_error hfailed))

/-- **Auditing all types is auditing them in sequence, made altogether or not at all.** Either every
annotated type can be audited on the API itself, in the order of definition, and then auditing all of
them succeeds and leaves the same API; or there is a first type that fails, after others that changed
the API, and then auditing all of them fails as that type does and leaves the API as it was. -/
theorem auditAll_in_sequence (config : Config) (api : Api) :
    let targets := annotated api.schema
    (∃ after,
      (auditEach config targets).onApi api = (.ok (), .direct after) ∧
      (auditAll config).onApi api = (.ok (targets.map (·.1.name)), .direct after)) ∨
    (∃ failure before target rest between,
      targets = before ++ target :: rest ∧
      (auditEach config before).onApi api = (.ok (), .direct between) ∧
      (auditType config target.1 target.2).onApi between = (.error failure, .direct between) ∧
      (auditEach config targets).onApi api = (.error failure, .direct between) ∧
      (auditAll config).onApi api = (.error failure, .direct api)) := by
  intro targets
  rcases targetsEffect_cases config targets api with
    ⟨after, hall⟩ | ⟨failure, before, target, rest, between, hsplit, hbefore, hfails, hall⟩
  · refine Or.inl ⟨after, ?_, onApi_auditAll_of_ok hall⟩
    obtain ⟨later, hrun⟩ := (realizes_auditEach config targets).run_direct_of_ok hall []
    exact Task.onApi_of_run hrun
  · refine Or.inr ⟨failure, before, target, rest, between, hsplit, ?_, ?_, ?_,
      onApi_auditAll_of_error hall⟩
    · obtain ⟨later, hrun⟩ := (realizes_auditEach config before).run_direct_of_ok hbefore []
      exact Task.onApi_of_run hrun
    · obtain ⟨later, hfailed⟩ := run_auditType_of_error hfails []
      exact Task.onApi_of_run hfailed
    · rw [hsplit]
      exact onApi_auditEach_of_error hbefore hfails

end AuditFields.Audit
