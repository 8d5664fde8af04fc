import AuditFields.Proofs.Audit.Stack
import AuditFields.Proofs.Audit.Types

/-!
# What stands against auditing a type

The work on an annotated type changes an API step by step, and each step can fail on what the steps
before it have left. Still every objection can be found in the API as it was (`objections`): no step
makes, hides or mends a fault that a later one looks for. So the work fails with the first objection,
and succeeds if there is none.
-/

namespace AuditFields.Audit

open Schema

variable {config : Config} {settings : Settings} {type : String} {api between after : Api}

/-! ## The objections -/

/-- The type lacks a directive that goes with the annotation. -/
def lackedDirectives (object : ObjectType) : List Failure :=
  (Naming.requiredDirectives.filter fun name => !object.hasDirective name).map .missingDirective

/-- The resource is no resolver with a request template. -/
def unfitResource (id : String) (resource : Resource) : List Failure :=
  if (resource.resolver?.bind (·.requestTemplate)).isSome then [] else [.missingRequest id]

/-- There is a resource of the id, but it is no resolver with a request template. -/
def unfitResolver (id : String) (api : Api) : List Failure :=
  match api.resource? id with
  | none => []
  | some resource => unfitResource id resource

/-- A soft delete mutation is asked for, but there is no update resolver to build it from. -/
def lackedResolver (settings : Settings) (type : String) (api : Api) : List Failure :=
  let id := Artifact.updateResolver.nameFor type
  if settings.softDelete ∧ api.resource? id = none then [.missingResolver type id] else []

/-- All fields of an input, if it is one, are bookkeeping fields. -/
def emptiedInput (settings : Settings) (type : String) (mutation : InputMutation) (api : Api) :
    List Failure :=
  match (api.type? (inputName type mutation)).bind TypeDefinition.input? with
  | none => []
  | some input =>
    if input.fields.all (settings.isAuditName ·.name) then
      [.emptyInput settings.names mutation type]
    else []

/-- Fields of the type, if it is an object type, break the contract. -/
def brokenContract (settings : Settings) (type : String) (api : Api) : List Failure :=
  match (api.type? type).bind TypeDefinition.object? with
  | none => []
  | some object => brokenFields settings object type

/-- What stands against the steps for a type with its settings, in the order in which it counts. -/
def flaws (settings : Settings) (type : String) (api : Api) : List Failure :=
  [unfitResolver (Artifact.createResolver.nameFor type) api,
   unfitResolver (Artifact.updateResolver.nameFor type) api,
   lackedResolver settings type api,
   emptiedInput settings type .create api,
   emptiedInput settings type .update api,
   brokenContract settings type api].flatten

/-- All that stands against the work on an annotated type, in the order in which it counts. -/
def objections (object : ObjectType) (directive : Directive) (api : Api) : List Failure :=
  lackedDirectives object ++ (Settings.wrongArguments directive ++
    flaws (Settings.given directive) object.name api)

/-! ## The steps -/

theorem judged_checkDirectives (object : ObjectType) :
    Except.Judged (checkDirectives object) (lackedDirectives object) := by
  unfold checkDirectives lackedDirectives
  rw [← List.head?_filter]
  cases Naming.requiredDirectives.filter fun name => !object.hasDirective name with
  | nil => exact Except.judged_ok ()
  | cons name others => exact Except.judged_error _ _

theorem judged_read (directive : Directive) :
    Except.Judged (Settings.read directive) (Settings.wrongArguments directive) := by
  rw [Settings.read_eq]
  cases Settings.wrongArguments directive with
  | nil => exact Except.judged_ok _
  | cons failure others => exact Except.judged_error _ _

theorem judged_resolverWithRequest (id : String) (resource : Resource) :
    Except.Judged (resolverWithRequest id resource) (unfitResource id resource) := by
  cases resource with
  | other value => exact Except.judged_error _ _
  | resolver resolver =>
    cases hrequest : resolver.requestTemplate with
    | none =>
      simp only [resolverWithRequest, unfitResource, Resource.resolver?, Option.bind_some, hrequest]
      exact Except.judged_error _ _
    | some request =>
      simp only [resolverWithRequest, unfitResource, Resource.resolver?, Option.bind_some, hrequest]
      exact Except.judged_ok _

theorem judged_requestEffect (id : String) (snippet : RequestTemplate) (api : Api) :
    Except.Judged (requestEffect id snippet api) (unfitResolver id api) := by
  unfold requestEffect unfitResolver
  cases api.resource? id with
  | none => exact Except.judged_ok api
  | some resource => exact (judged_resolverWithRequest id resource).map _

theorem judged_deletionIfAsked (config : Config) (settings : Settings)
    (hfit : unfitResolver (Artifact.updateResolver.nameFor type) api = []) :
    Except.Judged (deletionIfAsked config settings type api) (lackedResolver settings type api) := by
  unfold deletionIfAsked lackedResolver deletionEffect
  cases settings.softDelete with
  | false => exact Except.judged_ok api
  | true =>
    refine Except.Judged.map ?_ _
    dsimp only
    cases hfound : api.resource? (Artifact.updateResolver.nameFor type) with
    | none => exact Except.judged_error _ _
    | some resource =>
      have hjudged := judged_resolverWithRequest (Artifact.updateResolver.nameFor type) resource
      have hnone : unfitResource (Artifact.updateResolver.nameFor type) resource = [] := by
        rwa [unfitResolver, hfound] at hfit
      rw [hnone] at hjudged
      rwa [if_neg (by simp)]

theorem judged_inputEffect (settings : Settings) (type : String) (mutation : InputMutation) (api : Api) :
    Except.Judged (inputEffect settings type mutation api) (emptiedInput settings type mutation api) := by
  unfold inputEffect emptiedInput
  cases (api.type? (inputName type mutation)).bind TypeDefinition.input? with
  | none => exact Except.judged_ok api
  | some input =>
    have hempty : (withoutAuditFields settings input).fields.isEmpty =
        input.fields.all (settings.isAuditName ·.name) := by
      rw [Bool.eq_iff_iff, List.isEmpty_iff, withoutAuditFields, List.filter_eq_nil_iff,
        List.all_eq_true]
      simp
    dsimp only
    rw [hempty]
    cases input.fields.all (settings.isAuditName ·.name) with
    | true => exact Except.judged_error _ _
    | false => exact Except.judged_ok _

theorem judged_fieldsEffect (settings : Settings) (type : String) (api : Api) :
    Except.Judged (fieldsEffect settings type api) (brokenContract settings type api) := by
  unfold fieldsEffect brokenContract
  cases (api.type? type).bind TypeDefinition.object? with
  | none => exact Except.judged_ok api
  | some object =>
    dsimp only
    rw [missingFields_eq]
    cases brokenFields settings object type with
    | cons failure others => exact Except.judged_error _ _
    | nil =>
      dsimp only [Except.map, Except.verdict]
      cases lackedFields settings object with
      | nil => exact Except.judged_ok _
      | cons field others => exact Except.judged_ok _

/-! ## No step meets a fault of another -/

theorem unfitResolver_congr {id : String} (h : after.resource? id = api.resource? id) :
    unfitResolver id after = unfitResolver id api := by
  rw [unfitResolver, h, ← unfitResolver]

theorem emptiedInput_congr {mutation : InputMutation}
    (h : (after.type? (inputName type mutation)).bind TypeDefinition.input? =
      (api.type? (inputName type mutation)).bind TypeDefinition.input?) :
    emptiedInput settings type mutation after = emptiedInput settings type mutation api := by
  rw [emptiedInput, h, ← emptiedInput]

theorem brokenContract_congr (h : (after.type? type).bind TypeDefinition.object? =
      (api.type? type).bind TypeDefinition.object?) :
    brokenContract settings type after = brokenContract settings type api := by
  rw [brokenContract, h, ← brokenContract]

theorem unfitResolver_of_rewritten {id : String} {snippet : RequestTemplate}
    (h : Rewritten id snippet api after) : unfitResolver id after = [] := by
  rcases h with ⟨_, hafter⟩ | ⟨resolver, request, _, _, hafter⟩
  · rw [unfitResolver, hafter]
  · rw [unfitResolver, hafter]
    rfl

theorem lackedResolver_of_rewritten {snippet : RequestTemplate}
    (h : Rewritten (Artifact.updateResolver.nameFor type) snippet api after) :
    lackedResolver settings type after = lackedResolver settings type api := by
  have hiff : after.resource? (Artifact.updateResolver.nameFor type) = none ↔
      api.resource? (Artifact.updateResolver.nameFor type) = none := by
    rcases h with ⟨hapi, hafter⟩ | ⟨resolver, request, hapi, _, hafter⟩
    · rw [hapi, hafter]
    · rw [hapi, hafter]
      simp
  simp only [lackedResolver, hiff]

theorem input?_of_deletionIfAsked (h : deletionIfAsked config settings type api = .ok after)
    {mutation : InputMutation}
    (hinput : ∀ input, api.type? (inputName type mutation) = some (.input input) →
      inputName type mutation ≠ api.mutationName) :
    (after.type? (inputName type mutation)).bind TypeDefinition.input? =
      (api.type? (inputName type mutation)).bind TypeDefinition.input? := by
  rw [type?_of_deletionIfAsked_of_ne h (softDeleteInput_ne_inputName type type mutation).symm]
  exact input?_withMutations hinput _

theorem type?_self_of_deletionIfAsked (h : deletionIfAsked config settings type api = .ok after)
    (htype : type ≠ api.mutationName) : after.type? type = api.type? type := by
  have hself : Artifact.softDeleteInput.nameFor type ≠ type := Artifact.nameFor_ne_self rfl type
  rw [type?_of_deletionIfAsked_of_ne h hself.symm, withMutations, if_neg fun h => htype h.1]

/-- The steps on the inputs and the fields of a type, which write different types. -/
theorem judged_typeSteps (hkeyed : api.schema.Keyed) :
    Except.Judged (do
        let api ← inputEffect settings type .create api
        let api ← inputEffect settings type .update api
        fieldsEffect settings type api)
      (emptiedInput settings type .create api ++
        (emptiedInput settings type .update api ++ brokenContract settings type api)) := by
  refine (judged_inputEffect settings type .create api).bind fun hidden hhidden => ?_
  have hkeyedHidden := (develops_inputEffect hkeyed hhidden).keyed hkeyed
  have hupdate : hidden.type? (inputName type .update) = api.type? (inputName type .update) := by
    rw [type?_of_inputEffect hkeyed hhidden, if_neg (inputName_create_ne_update type).symm]
  rw [← emptiedInput_congr (congrArg (Option.bind · _) hupdate)]
  refine (judged_inputEffect settings type .update hidden).bind fun bare hbare => ?_
  have htype : bare.type? type = api.type? type := by
    rw [type?_of_inputEffect hkeyedHidden hbare, if_neg (inputName_ne_self type .update).symm,
      type?_of_inputEffect hkeyed hhidden, if_neg (inputName_ne_self type .create).symm]
  rw [← brokenContract_congr (congrArg (Option.bind · _) htype)]
  exact judged_fieldsEffect settings type bare

theorem judged_stepsEffect (hkeyed : api.schema.Keyed) (htype : type ≠ api.mutationName)
    (hinput : ∀ mutation input, api.type? (inputName type mutation) = some (.input input) →
      inputName type mutation ≠ api.mutationName) :
    Except.Judged (stepsEffect config settings type api) (flaws settings type api) := by
  have hids := createResolver_ne_updateResolver type
  simp only [flaws, List.flatten_cons, List.flatten_nil, List.append_nil]
  refine (judged_requestEffect _ _ api).bind fun created hcreated => ?_
  have hcreatedUpdate : created.resource? (Artifact.updateResolver.nameFor type) =
      api.resource? (Artifact.updateResolver.nameFor type) :=
    (frame_requestEffect hcreated).resource fun hmem => hids (List.mem_singleton.mp hmem).symm
  rw [← unfitResolver_congr hcreatedUpdate]
  refine (judged_requestEffect _ _ created).bind fun updated hupdated => ?_
  have hrewritten : Rewritten (Artifact.updateResolver.nameFor type) (templateOnUpdate config settings)
      api updated :=
    (rewritten_of_requestEffect hupdated).congr hcreatedUpdate rfl
  rw [← lackedResolver_of_rewritten hrewritten]
  refine (judged_deletionIfAsked config settings (unfitResolver_of_rewritten hrewritten)).bind
    fun deleted hdeleted => ?_
  -- The resolvers are done with. From here on the types count, and what is looked at is as it was.
  have hschema : updated.schema = api.schema :=
    (schema_of_requestEffect hupdated).trans (schema_of_requestEffect hcreated)
  have hroot : updated.mutationName = api.mutationName := congrArg Schema.mutationName hschema
  have hfound : ∀ name, updated.type? name = api.type? name := fun name =>
    congrArg (Schema.get? · name) hschema
  simp only [← hroot, ← hfound] at htype hinput
  have hinputs : ∀ mutation, (deleted.type? (inputName type mutation)).bind TypeDefinition.input? =
      (api.type? (inputName type mutation)).bind TypeDefinition.input? := fun mutation =>
    (input?_of_deletionIfAsked hdeleted (hinput mutation)).trans (congrArg (Option.bind · _) (hfound _))
  have hself : deleted.type? type = api.type? type :=
    (type?_self_of_deletionIfAsked hdeleted htype).trans (hfound type)
  rw [← emptiedInput_congr (hinputs .create), ← emptiedInput_congr (hinputs .update),
    ← brokenContract_congr (congrArg (Option.bind · _) hself)]
  exact judged_typeSteps ((develops_deletionIfAsked hdeleted).keyed (hschema ▸ hkeyed))

theorem judged_targetEffect {object : ObjectType} {directive : Directive} (hkeyed : api.schema.Keyed)
    (htype : object.name ≠ api.mutationName)
    (hinput : ∀ mutation input, api.type? (inputName object.name mutation) = some (.input input) →
      inputName object.name mutation ≠ api.mutationName) :
    Except.Judged (targetEffect config (object, directive) api) (objections object directive api) := by
  unfold targetEffect objections
  refine (judged_checkDirectives object).bind fun _ _ => ?_
  refine (judged_read directive).bind fun settings hread => ?_
  rw [Settings.read_eq] at hread
  obtain ⟨_, _, rfl⟩ := Except.map_eq_ok_iff.mp hread
  exact judged_stepsEffect hkeyed htype hinput

/-- **Auditing a type fails with the first objection, and only if there is one.** All objections are
found in the API as it was before. The mutation root must be neither the type nor one of its inputs:
the soft delete mutation is added to the root before these are looked at. -/
theorem auditType_verdict (config : Config) (object : ObjectType) (directive : Directive)
    (hkeyed : api.schema.Keyed) (htype : api.mutationName ≠ object.name)
    (hinput : ∀ mutation, api.mutationName ≠ inputName object.name mutation) :
    ((auditType config object directive).onApi api).1 =
      Except.verdict (objections object directive api) := by
  have hjudged : Except.Judged (targetEffect config (object, directive) api)
      (objections object directive api) :=
    judged_targetEffect hkeyed htype.symm fun mutation _ _ => (hinput mutation).symm
  cases heffect : targetEffect config (object, directive) api with
  | error failure =>
    rw [heffect] at hjudged
    obtain ⟨later, hrun⟩ := run_auditType_of_error heffect []
    rw [Task.onApi_of_run hrun, ← hjudged]
    rfl
  | ok after =>
    rw [heffect] at hjudged
    obtain ⟨later, hrun⟩ := (realizes_auditType config (object, directive)).run_direct_of_ok heffect []
    rw [Task.onApi_of_run hrun, ← hjudged]
    rfl

/-- An annotation that takes all fields out of the create input of the journal and gives one name to
fields of two kinds. -/
def clashing : Directive :=
  ⟨Naming.auditDirective, [("createdByField", .string "text"), ("deletedAtField", .string "deleted")]⟩

theorem auditType_verdict_clashing :
    let object := entryType "Post" "deleted" clashing.arguments
    let failure : Failure := .emptyInput
      ["createdAt", "text", "updatedAt", "updatedBy", "deleted", "deleted", "deletedBy"] .create "Post"
    journal.schema.Keyed ∧ journal.mutationName ≠ object.name ∧
    (∀ mutation, journal.mutationName ≠ inputName object.name mutation) ∧
    objections object clashing journal =
      [failure, .contract "Post" .deletedAt "deleted" (.named Naming.floatType)] ∧
    ((auditType {} object clashing).onApi journal).1 = .error failure := by
  intro object failure
  have hname : journal.mutationName ≠ object.name := by decide
  have hinput : ∀ mutation, journal.mutationName ≠ inputName object.name mutation := by
    intro mutation
    cases mutation with
    | create => decide
    | update => decide
  have hobjections : objections object clashing journal =
      [failure, .contract "Post" .deletedAt "deleted" (.named Naming.floatType)] := by
    decide +kernel
  have hverdict := auditType_verdict {} object clashing keyed_journal hname hinput
  rw [hobjections] at hverdict
  exact ⟨keyed_journal, hname, hinput, hobjections, hverdict⟩

end AuditFields.Audit
