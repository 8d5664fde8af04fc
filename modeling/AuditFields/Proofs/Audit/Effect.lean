import AuditFields.Audit.Basic
import AuditFields.Proofs.Drafts.Effect
import AuditFields.Proofs.Result

/-!
# What auditing does to an API

Each step of the work on an annotated type as a function on APIs: the failure that it ends with, or the
API after it. The functions make the choices of the steps in the order of the steps, and one lemma for
each step says that the step realizes its function, in whatever drafts it runs. Everything else about
auditing is said about these functions.
-/

namespace AuditFields

open Schema

/-! ## The settings of an annotation -/

namespace Settings

/-- The settings after one argument as written. -/
def readArgument (settings : Settings) (argument : String × Value) : Except Failure Settings :=
  if argument.2 = .null then .ok settings
  else
    match Argument.ofName? argument.1 with
    | some known => settings.set known argument.1 argument.2
    | none => .ok settings

/-- The settings that an annotation gives, or the failure of its first wrong argument. -/
def read (directive : Directive) : Except Failure Settings :=
  directive.arguments.foldlM readArgument {}

theorem gives_setArgument {σ : Type} (settings : Settings) (argument : String × Value) :
    (settings.setArgument argument : Task σ Settings).Gives (settings.readArgument argument) := by
  unfold setArgument readArgument
  split
  · exact Task.gives_pure settings
  · cases Argument.ofName? argument.1 with
    | none => exact Task.gives_report_then (Task.gives_pure settings)
    | some known =>
      dsimp only
      cases settings.set known argument.1 argument.2 with
      | error failure => exact Task.gives_throw failure
      | ok after => exact Task.gives_pure after

theorem gives_ofDirective {σ : Type} (directive : Directive) :
    (ofDirective directive : Task σ Settings).Gives (read directive) :=
  Task.gives_foldlM gives_setArgument directive.arguments {}

end Settings

namespace Audit

/-! ## The steps as functions -/

/-- The failure of a type without the directives that go with the annotation. -/
def checkDirectives (object : ObjectType) : Except Failure Unit :=
  match Naming.requiredDirectives.find? fun name => !object.hasDirective name with
  | some name => .error (.missingDirective name)
  | none => .ok ()

/-- The API with a template in front of the request template of a resolver, if there is the resolver. -/
def requestEffect (id : String) (snippet : RequestTemplate) (api : Api) : Except Failure Api :=
  match api.resource? id with
  | none => .ok api
  | some resource =>
    (resolverWithRequest id resource).map fun found =>
      api.apply (.resource id (.resolver (prepend snippet found.2 found.1)))

/-- The change that adds the input of the soft delete mutation, unless there is a type of its name. -/
def deletionInputEdits (type : String) (api : Api) : List Edit :=
  if (api.type? (Artifact.softDeleteInput.nameFor type)).isNone then [.input (deletionInput type)] else []

/-- The changes that add the soft delete mutation and its resolver, given the name of the mutation root
and the update resolver with its request. -/
def deletionEdits (config : Config) (type : String) (snippet : RequestTemplate) (mutationName : String)
    (found : Resolver × String) : List Edit :=
  let id := Artifact.softDeleteResolver.nameFor type
  [.mutations [deletionMutation type],
   .resource id (.resolver (deletionResolver config type snippet mutationName found.1 found.2)),
   .deployment type id]

/-- The API with the soft delete mutation of a type. -/
def deletionEffect (config : Config) (type : String) (snippet : RequestTemplate) (api : Api) :
    Except Failure Api :=
  (updateResolver type (api.resource? (Artifact.updateResolver.nameFor type))).map fun found =>
    (api.applyAll (deletionInputEdits type api)).applyAll
      (deletionEdits config type snippet api.mutationName found)

/-- The API with the soft delete mutation of a type, if its settings ask for one. -/
def deletionIfAsked (config : Config) (settings : Settings) (type : String) (api : Api) :
    Except Failure Api :=
  if settings.softDelete then deletionEffect config type (templateOnCreate config settings) api
  else .ok api

/-- The API with the bookkeeping fields taken out of the input of a mutation. -/
def inputEffect (settings : Settings) (type : String) (mutation : InputMutation) (api : Api) :
    Except Failure Api :=
  match (api.type? (inputName type mutation)).bind TypeDefinition.input? with
  | none => .ok api
  | some input =>
    if (withoutAuditFields settings input).fields.isEmpty then
      .error (.emptyInput settings.names mutation type)
    else .ok (api.apply (.type (.input (withoutAuditFields settings input))))

/-- The API with the missing bookkeeping fields of a type. -/
def fieldsEffect (settings : Settings) (type : String) (api : Api) : Except Failure Api :=
  match (api.type? type).bind TypeDefinition.object? with
  | none => .ok api
  | some object =>
    match missingFields settings object type with
    | .error failure => .error failure
    | .ok [] => .ok api
    | .ok added => .ok (api.apply (.type (.object (object.addFields added))))

/-- The API after all steps for a type with its settings. -/
def stepsEffect (config : Config) (settings : Settings) (type : String) (api : Api) :
    Except Failure Api := do
  let api ←
    requestEffect (Artifact.createResolver.nameFor type) (templateOnCreate config settings) api
  let api ←
    requestEffect (Artifact.updateResolver.nameFor type) (templateOnUpdate config settings) api
  let api ← deletionIfAsked config settings type api
  let api ← inputEffect settings type .create api
  let api ← inputEffect settings type .update api
  fieldsEffect settings type api

/-- The API after what the annotation of a type asks for. -/
def targetEffect (config : Config) (target : ObjectType × Directive) (api : Api) :
    Except Failure Api := do
  checkDirectives target.1
  let settings ← Settings.read target.2
  stepsEffect config settings target.1.name api

/-- The API after what the annotations of types ask for, one type after the other. -/
def targetsEffect (config : Config) (targets : List (ObjectType × Directive)) (api : Api) :
    Except Failure Api :=
  targets.foldlM (fun api target => targetEffect config target api) api

/-! ## The steps realize their functions -/

theorem gives_requireDirectives {σ : Type} (object : ObjectType) :
    (requireDirectives object : Task σ Unit).Gives (checkDirectives object) := by
  unfold requireDirectives checkDirectives
  cases Naming.requiredDirectives.find? fun name => !object.hasDirective name with
  | some name => exact Task.gives_throw _
  | none => exact Task.gives_pure ()

theorem realizes_report (event : Event) :
    (Task.report event : Task Workspace Unit).Realizes .ok :=
  fun _ _ => Task.realizesAt_report event

theorem realizes_edit (edit : Edit) :
    (Workspace.edit edit).Realizes fun api => .ok (api.apply edit) :=
  fun _ _ => Task.realizesAt_edit edit

theorem realizes_addToRequest (id : String) (snippet : RequestTemplate) :
    (addToRequest id snippet).Realizes (requestEffect id snippet) := by
  intro workspace hfaithful
  refine Task.realizesAt_state ?_
  rw [hfaithful.shows.resource? id, requestEffect]
  cases workspace.settled.resource? id with
  | none => exact Task.realizesAt_report _
  | some resource =>
    dsimp only
    cases resolverWithRequest id resource with
    | error failure => exact Task.realizesAt_throw failure
    | ok found => exact (Task.realizesAt_edit _).bind hfaithful (realizes_report _)

theorem realizes_addDeletionInput (type : String) :
    (addDeletionInput type).Realizes fun api => .ok (api.applyAll (deletionInputEdits type api)) := by
  intro workspace hfaithful
  refine Task.realizesAt_state ?_
  rw [hfaithful.shows.type? _]
  simp only [deletionInputEdits]
  by_cases hnone : (workspace.settled.type? (Artifact.softDeleteInput.nameFor type)).isNone
  · simp only [hnone, if_true]
    exact Task.realizesAt_edit _
  · simp only [hnone]
    exact Task.realizesAt_report _

theorem realizes_addDeletion (config : Config) (type : String) (snippet : RequestTemplate) :
    (addDeletion config type snippet).Realizes (deletionEffect config type snippet) := by
  intro workspace hfaithful
  refine Task.realizesAt_state ?_
  rw [hfaithful.shows.resource? _, deletionEffect]
  dsimp only
  cases updateResolver type
      (workspace.settled.resource? (Artifact.updateResolver.nameFor type)) with
  | error failure => exact Task.realizesAt_throw failure
  | ok found =>
    obtain ⟨update, request⟩ := found
    -- The name of the root is read between the changes, none of which alters it.
    have hresolver : (do
        let name := (← Task.state).mutationName
        let id := Artifact.softDeleteResolver.nameFor type
        Workspace.edit
          (.resource id (.resolver (deletionResolver config type snippet name update request)))
        Workspace.edit (.deployment type id)
        Task.report (.softDeleteAdded id type) : Task Workspace Unit).Realizes fun api =>
          .ok (api.applyAll (deletionEdits config type snippet api.mutationName (update, request)).tail) := by
      intro under hunder
      refine Task.realizesAt_state ?_
      rw [hunder.shows.mutationName]
      exact (Task.realizesAt_edit _).bind hunder ((realizes_edit _).bind (realizes_report _))
    have hname : ((workspace.settled.applyAll (deletionInputEdits type workspace.settled)).apply
        (.mutations [deletionMutation type])).mutationName = workspace.settled.mutationName := by
      rw [Api.mutationName_apply, Api.mutationName_applyAll]
    dsimp only [Except.map]
    rw [← hname]
    exact ((realizes_addDeletionInput type).bind
      ((realizes_edit (.mutations [deletionMutation type])).bind hresolver)) workspace hfaithful

theorem realizes_hideInInput (settings : Settings) (type : String) (mutation : InputMutation) :
    (hideInInput settings type mutation).Realizes (inputEffect settings type mutation) := by
  intro workspace hfaithful
  refine Task.realizesAt_state ?_
  rw [hfaithful.shows.type? _, inputEffect]
  cases (workspace.settled.type? (inputName type mutation)).bind TypeDefinition.input? with
  | none => exact Task.realizesAt_pure
  | some input =>
    dsimp only
    split
    · exact Task.realizesAt_throw _
    · exact (Task.realizesAt_report _).bind hfaithful (realizes_edit _)

theorem realizes_completeFields (settings : Settings) (type : String) :
    (completeFields settings type).Realizes (fieldsEffect settings type) := by
  intro workspace hfaithful
  refine Task.realizesAt_state ?_
  rw [hfaithful.shows.type? _, fieldsEffect]
  cases (workspace.settled.type? type).bind TypeDefinition.object? with
  | none => exact Task.realizesAt_pure
  | some object =>
    dsimp only
    cases missingFields settings object type with
    | error failure => exact Task.realizesAt_throw failure
    | ok added =>
      cases added with
      | nil => exact Task.realizesAt_pure
      | cons first rest => exact (Task.realizesAt_report _).bind hfaithful (realizes_edit _)

theorem realizes_steps (config : Config) (settings : Settings) (type : String) :
    (steps config settings type).Realizes (stepsEffect config settings type) := by
  unfold steps stepsEffect deletionIfAsked
  by_cases hsoft : settings.softDelete
  · simp only [hsoft, if_true]
    exact (realizes_addToRequest _ _).bind ((realizes_addToRequest _ _).bind
      ((realizes_addDeletion _ _ _).bind ((realizes_hideInInput _ _ _).bind
        ((realizes_hideInInput _ _ _).bind (realizes_completeFields _ _)))))
  · simp only [hsoft]
    exact (realizes_addToRequest _ _).bind ((realizes_addToRequest _ _).bind
      ((realizes_hideInInput _ _ _).bind
        ((realizes_hideInInput _ _ _).bind (realizes_completeFields _ _))))

theorem realizes_auditType (config : Config) (target : ObjectType × Directive) :
    (auditType config target.1 target.2).Realizes (targetEffect config target) :=
  fun workspace hfaithful =>
    (gives_requireDirectives target.1).bind_realizesAt fun _ =>
      (Settings.gives_ofDirective target.2).bind_realizesAt fun settings =>
        (realizes_steps config settings target.1.name).inDraft workspace hfaithful

theorem realizes_auditReported (config : Config) (target : ObjectType × Directive) :
    (auditReported config target).Realizes (targetEffect config target) := by
  intro workspace hfaithful
  have hreported := (((realizes_auditType config target) workspace hfaithful).reportFailure
    fun failure => .notTransformed target.1.name failure.message).bind hfaithful
      (realizes_report (.transformed target.1.name))
  have hsame : targetEffect config target workspace.settled >>= Except.ok =
      targetEffect config target workspace.settled := bind_pure _
  rwa [hsame] at hreported

end Audit

end AuditFields
