import AuditFields.Proofs.Audit.Upkeep
import Mathlib.Data.List.Forall2

/-!
# What auditing does to the stack

For an annotated type the create and update resolvers get a template in front of their requests, and
the resolver of the soft delete mutation is made from the update resolver as it stands by then, so
from the one that has its template already (`CarriedOut`). Everything else stays as it was
(`StackFrame`). The logical ids of what is written for a type hold its name between fixed parts, so
the work on one type never meets what was written for another, and the effect of a whole run is that
of its parts side by side (`StackEffect.append`).
-/

namespace AuditFields.Audit

open Schema

variable {config : Config} {settings : Settings} {type : String} {api before between after : Api}

/-! ## What stays -/

/-- From one API to the other, the stack and its mapping have changed under the written ids only, the
added ids have come to the end where they were not there, and the mutation root has the same name. -/
structure StackFrame (written added : List String) (api after : Api) : Prop where
  resource {id : String} (h : id ∉ written) : after.resource? id = api.resource? id
  deployment {id : String} (h : id ∉ added) : after.stackMapping.get? id = api.stackMapping.get? id
  resourceOrder : after.stack.resources.names = added.foldl Entries.withName api.stack.resources.names
  deploymentOrder : after.stackMapping.names = added.foldl Entries.withName api.stackMapping.names
  others : after.stack.others = api.stack.others
  mutationName : after.mutationName = api.mutationName

namespace StackFrame

variable {written added : List String}

theorem of_stack_eq (hstack : after.stack = api.stack) (hmapping : after.stackMapping = api.stackMapping)
    (hname : after.mutationName = api.mutationName) : StackFrame written [] api after where
  resource _ := by rw [Api.resource?, Api.resource?, hstack]
  deployment _ := by rw [hmapping]
  resourceOrder := by rw [hstack]; rfl
  deploymentOrder := by rw [hmapping]; rfl
  others := by rw [hstack]
  mutationName := hname

theorem refl (api : Api) : StackFrame written [] api api :=
  of_stack_eq rfl rfl rfl

theorem trans {written' added' : List String} (h : StackFrame written added api between)
    (hnext : StackFrame written' added' between after) :
    StackFrame (written ++ written') (added ++ added') api after where
  resource hid := by
    rw [List.mem_append, not_or] at hid
    exact (hnext.resource hid.2).trans (h.resource hid.1)
  deployment hid := by
    rw [List.mem_append, not_or] at hid
    exact (hnext.deployment hid.2).trans (h.deployment hid.1)
  resourceOrder := by rw [hnext.resourceOrder, h.resourceOrder, List.foldl_append]
  deploymentOrder := by rw [hnext.deploymentOrder, h.deploymentOrder, List.foldl_append]
  others := hnext.others.trans h.others
  mutationName := hnext.mutationName.trans h.mutationName

theorem addMutations (api : Api) (fields : List Field) :
    StackFrame [] [] api (api.apply (.mutations fields)) :=
  of_stack_eq rfl rfl (Api.mutationName_apply _ _)

theorem addResolver (api : Api) (id : String) (resource : Resource) (stack : String) :
    StackFrame [id] [id] api (api.applyAll [.resource id resource, .deployment stack id]) where
  resource {other} h := by
    have hne : id ≠ other := fun heq => h (List.mem_singleton.mpr heq.symm)
    exact Entries.get?_put_of_ne hne _ _
  deployment {other} h := by
    have hne : id ≠ other := fun heq => h (List.mem_singleton.mpr heq.symm)
    exact Entries.get?_put_of_ne hne _ _
  resourceOrder := Entries.names_put _ _ _
  deploymentOrder := Entries.names_put _ _ _
  others := rfl
  mutationName := rfl

end StackFrame

/-! ## What is written for a type -/

/-- The resolver of the id is there exactly if it was, as it was except for a template in front of its
request template. -/
def Rewritten (id : String) (snippet : RequestTemplate) (api after : Api) : Prop :=
  (api.resource? id = none ∧ after.resource? id = none) ∨
  ∃ resolver request, api.resource? id = some (.resolver resolver) ∧
    resolver.requestTemplate = some request ∧
    after.resource? id = some (.resolver
      { resolver with requestTemplate := some (snippet.render ++ "\n\n" ++ request) })

/-- There was an update resolver with a request template, the resolver of the soft delete mutation runs
the create template and the update template in front of it, and it is deployed with the type. -/
def Deletable (config : Config) (type : String) (settings : Settings) (api after : Api) : Prop :=
  ∃ update request, api.resource? (Artifact.updateResolver.nameFor type) = some (.resolver update) ∧
    update.requestTemplate = some request ∧
    after.resource? (Artifact.softDeleteResolver.nameFor type) = some (.resolver {
      apiId := .object [("Fn::GetAtt", .array [.string config.apiLogicalId, .string "ApiId"])]
      dataSourceName := some (.object
        [("Fn::GetAtt", .array [.string (Artifact.dataSource.nameFor type), .string "Name"])])
      typeName := api.mutationName
      fieldName := Artifact.softDeleteMutation.nameFor type
      requestTemplate := some ((templateOnCreate config settings).render ++ "\n" ++
        (templateOnUpdate config settings).render ++ "\n\n" ++ request)
      responseTemplate := update.responseTemplate
      otherProperties := []
      dependsOn := none
      otherAttributes := [] }) ∧
    after.stackMapping.get? (Artifact.softDeleteResolver.nameFor type) = some type

/-- The stack carries out the settings of a type. -/
structure CarriedOut (config : Config) (type : String) (settings : Settings) (api after : Api) :
    Prop where
  create : Rewritten (Artifact.createResolver.nameFor type) (templateOnCreate config settings) api after
  update : Rewritten (Artifact.updateResolver.nameFor type) (templateOnUpdate config settings) api after
  deletion (h : settings.softDelete = true) : Deletable config type settings api after

/-- The resolvers that the steps for a type may write. -/
def resolvers : List Artifact := [.createResolver, .updateResolver, .softDeleteResolver]

/-- The logical ids of the resolvers for a type. -/
def resolversOf (type : String) : List String := resolvers.map (·.nameFor type)

theorem apart_resolvers : Artifact.Apart resolvers := by decide

/-- The resolver that is added for a type with its settings. -/
def addedFor (type : String) (settings : Settings) : List String :=
  if settings.softDelete then [Artifact.softDeleteResolver.nameFor type] else []

/-- The resolvers that may be written for a type with its settings. -/
def writtenFor (type : String) (settings : Settings) : List String :=
  [Artifact.createResolver.nameFor type, Artifact.updateResolver.nameFor type] ++
    addedFor type settings

theorem addedFor_subset (type : String) (settings : Settings) :
    addedFor type settings ⊆ writtenFor type settings :=
  List.subset_append_right _ _

theorem writtenFor_subset (type : String) (settings : Settings) :
    writtenFor type settings ⊆ resolversOf type := by
  intro id hid
  unfold writtenFor addedFor at hid
  split at hid
  · exact hid
  · rw [List.append_nil] at hid
    exact List.mem_append_left [_] hid

theorem createResolver_ne_updateResolver (type : String) :
    Artifact.createResolver.nameFor type ≠ Artifact.updateResolver.nameFor type := by
  intro heq
  cases ((apart_resolvers.nameFor_eq_iff (by decide) (by decide)).mp heq).1

theorem nameFor_not_mem_addedFor {artifact : Artifact} (h : artifact ∈ resolvers)
    (hne : artifact ≠ .softDeleteResolver) (settings : Settings) :
    artifact.nameFor type ∉ addedFor type settings := by
  unfold addedFor
  split
  · intro hmem
    have heq := List.mem_singleton.mp hmem
    exact hne ((apart_resolvers.nameFor_eq_iff h (by decide)).mp heq).1
  · exact List.not_mem_nil

/-! ## Work that does not meet -/

theorem Rewritten.congr {id : String} {snippet : RequestTemplate} (h : Rewritten id snippet before between)
    (hbefore : before.resource? id = api.resource? id)
    (hafter : after.resource? id = between.resource? id) : Rewritten id snippet api after := by
  unfold Rewritten at h ⊢
  rwa [hbefore, ← hafter] at h

theorem CarriedOut.congr {written added written' added' : List String}
    (h : CarriedOut config type settings before between)
    (hbefore : StackFrame written added api before) (hafter : StackFrame written' added' between after)
    (hfresh : ∀ id ∈ resolversOf type, id ∉ written)
    (hkept : ∀ id ∈ resolversOf type, id ∉ written' ∧ id ∉ added') :
    CarriedOut config type settings api after := by
  have hcreate : Artifact.createResolver.nameFor type ∈ resolversOf type :=
    List.mem_map_of_mem (by decide)
  have hupdate : Artifact.updateResolver.nameFor type ∈ resolversOf type :=
    List.mem_map_of_mem (by decide)
  have hdelete : Artifact.softDeleteResolver.nameFor type ∈ resolversOf type :=
    List.mem_map_of_mem (by decide)
  refine ⟨h.create.congr (hbefore.resource (hfresh _ hcreate)) (hafter.resource (hkept _ hcreate).1),
    h.update.congr (hbefore.resource (hfresh _ hupdate)) (hafter.resource (hkept _ hupdate).1),
    fun hsoft => ?_⟩
  obtain ⟨update, request, hfound, hrequest, hresolver, hdeployed⟩ := h.deletion hsoft
  refine ⟨update, request, ?_, hrequest, ?_, ?_⟩
  · rw [← hfound, hbefore.resource (hfresh _ hupdate)]
  · rw [hafter.resource (hkept _ hdelete).1, hresolver, hbefore.mutationName]
  · rw [hafter.deployment (hkept _ hdelete).2, hdeployed]

/-! ## The steps for a type -/

theorem rewritten_of_requestEffect {id : String} {snippet : RequestTemplate}
    (h : requestEffect id snippet api = .ok after) : Rewritten id snippet api after := by
  rcases requestEffect_cases h with ⟨hnone, rfl⟩ | ⟨resolver, request, hfound, hrequest, rfl⟩
  · exact Or.inl ⟨hnone, hnone⟩
  · refine Or.inr ⟨resolver, request, hfound, hrequest, ?_⟩
    rw [Api.resource?_apply]
    exact if_pos rfl

theorem frame_requestEffect {id : String} {snippet : RequestTemplate}
    (h : requestEffect id snippet api = .ok after) : StackFrame [id] [] api after := by
  rcases requestEffect_cases h with ⟨_, rfl⟩ | ⟨resolver, request, hfound, _, rfl⟩
  · exact .refl _
  · refine ⟨fun hid => ?_, fun _ => rfl, ?_, rfl, rfl, rfl⟩
    · rw [Api.resource?_apply]
      exact if_neg fun heq => hid (List.mem_singleton.mpr heq.symm)
    · -- The resolver is written in the place where it was found.
      have hmem : id ∈ api.stack.resources.names := by
        by_contra hnot
        cases hfound.symm.trans (Entries.get?_eq_none_iff.mpr hnot)
      exact (Entries.names_put _ _ _).trans (Entries.withName_of_mem hmem)

theorem frame_deletionInputEdits (type : String) (api : Api) :
    StackFrame [] [] api (api.applyAll (deletionInputEdits type api)) := by
  unfold deletionInputEdits
  split
  · exact .of_stack_eq rfl rfl (Api.mutationName_applyAll _ _)
  · exact .refl api

theorem frame_deletionIfAsked (h : deletionIfAsked config settings type api = .ok after) :
    StackFrame (addedFor type settings) (addedFor type settings) api after := by
  unfold addedFor
  rcases deletionIfAsked_cases h with ⟨hsoft, rfl⟩ | ⟨update, request, hsoft, _, _, rfl⟩
  · rw [hsoft]
    exact .refl _
  · rw [hsoft, if_pos rfl]
    exact (frame_deletionInputEdits type api).trans
      ((StackFrame.addMutations _ _).trans (.addResolver _ _ _ _))

theorem frame_inputEffect {mutation : InputMutation}
    (h : inputEffect settings type mutation api = .ok after) : StackFrame [] [] api after := by
  rcases inputEffect_cases h with ⟨_, rfl⟩ | ⟨input, _, _, rfl⟩
  · exact .refl _
  · exact .of_stack_eq rfl rfl (Api.mutationName_apply _ _)

theorem frame_fieldsEffect (h : fieldsEffect settings type api = .ok after) :
    StackFrame [] [] api after := by
  rcases fieldsEffect_cases h with ⟨_, rfl⟩ | ⟨object, added, _, _, ⟨_, rfl⟩ | rfl⟩
  · exact .refl _
  · exact .refl _
  · exact .of_stack_eq rfl rfl (Api.mutationName_apply _ _)

/-- The soft delete mutation runs the update request with its template, as it stands by then. -/
theorem deletable_of_deletionIfAsked (hsoft : settings.softDelete = true)
    (hname : between.mutationName = api.mutationName)
    (hupdate : Rewritten (Artifact.updateResolver.nameFor type) (templateOnUpdate config settings) api
      between)
    (h : deletionIfAsked config settings type between = .ok after) :
    Deletable config type settings api after := by
  rcases deletionIfAsked_cases h with ⟨hnot, _⟩ | ⟨found, text, _, hfound, htext, rfl⟩
  · cases hsoft.symm.trans hnot
  rcases hupdate with ⟨_, hnone⟩ | ⟨update, request, hbefore, hrequest, hrewritten⟩
  · cases hfound.symm.trans hnone
  obtain rfl := Resource.resolver.inj (Option.some.inj (hfound.symm.trans hrewritten))
  obtain rfl := Option.some.inj htext
  refine ⟨update, request, hbefore, hrequest, ?_, Entries.get?_put_self _ _ _⟩
  refine (Entries.get?_put_self _ _ _).trans ?_
  have htwice : (templateOnCreate config settings).render ++ "\n" ++
      ((templateOnUpdate config settings).render ++ "\n\n" ++ request) =
      (templateOnCreate config settings).render ++ "\n" ++
        (templateOnUpdate config settings).render ++ "\n\n" ++ request := by
    simp only [String.append_assoc]
  rw [deletionResolver, attributeOf, attributeOf, hname, htwice]

/-- The step: what is done for a type is carried out by the stack, and nothing else is done to it. -/
theorem stepsEffect_carriesOut (h : stepsEffect config settings type api = .ok after) :
    CarriedOut config type settings api after ∧
      StackFrame (writtenFor type settings) (addedFor type settings) api after := by
  obtain ⟨created, updated, deleted, hidden, stripped, hcreated, hupdated, hdeleted, hhidden,
    hstripped, hfields⟩ := stepsEffect_cases h
  have hframeCreate := frame_requestEffect hcreated
  have hframeUpdate := frame_requestEffect hupdated
  have hframeDelete := frame_deletionIfAsked hdeleted
  have hframeRest : StackFrame [] [] deleted after :=
    (frame_inputEffect hhidden).trans ((frame_inputEffect hstripped).trans (frame_fieldsEffect hfields))
  have hdifferent := createResolver_ne_updateResolver type
  have hcreateKept : Artifact.createResolver.nameFor type ∉ addedFor type settings :=
    nameFor_not_mem_addedFor (by decide) (by decide) settings
  have hupdateKept : Artifact.updateResolver.nameFor type ∉ addedFor type settings :=
    nameFor_not_mem_addedFor (by decide) (by decide) settings
  have hcreate : Rewritten (Artifact.createResolver.nameFor type) (templateOnCreate config settings) api
      deleted := by
    refine (rewritten_of_requestEffect hcreated).congr rfl ?_
    exact (hframeUpdate.trans hframeDelete).resource (List.not_mem_cons_of_ne_of_not_mem hdifferent hcreateKept)
  have hupdate : Rewritten (Artifact.updateResolver.nameFor type) (templateOnUpdate config settings) api
      updated := by
    refine (rewritten_of_requestEffect hupdated).congr ?_ rfl
    exact hframeCreate.resource fun hmem => hdifferent (List.mem_singleton.mp hmem).symm
  have hcarried : CarriedOut config type settings api deleted :=
    { create := hcreate
      update := hupdate.congr rfl (hframeDelete.resource hupdateKept)
      deletion := fun hsoft => deletable_of_deletionIfAsked hsoft
        (hframeCreate.trans hframeUpdate).mutationName hupdate hdeleted }
  refine ⟨hcarried.congr (.refl api : StackFrame [] [] api api) hframeRest
    (fun _ _ => List.not_mem_nil) fun _ _ => ⟨List.not_mem_nil, List.not_mem_nil⟩, ?_⟩
  have hframe := hframeCreate.trans (hframeUpdate.trans (hframeDelete.trans hframeRest))
  rwa [List.append_nil] at hframe

/-! ## All types -/

/-- The annotated type has the name and the annotation gives the settings. -/
def Asks (target : ObjectType × Directive) (audited : String × Settings) : Prop :=
  audited.1 = target.1.name ∧ Settings.read target.2 = .ok audited.2

theorem names_of_asks {targets : List (ObjectType × Directive)} {audited : List (String × Settings)}
    (h : List.Forall₂ Asks targets audited) : audited.map (·.1) = targets.map (·.1.name) := by
  induction h with
  | nil => rfl
  | cons hask _ ih => rw [List.map_cons, List.map_cons, ih, hask.1]

/-- The settings of all types are carried out by the stack, and nothing else is done to it. -/
structure AllCarriedOut (config : Config) (audited : List (String × Settings)) (api after : Api) :
    Prop where
  carriedOut : ∀ entry ∈ audited, CarriedOut config entry.1 entry.2 api after
  frame : StackFrame (audited.flatMap fun entry => writtenFor entry.1 entry.2)
    (audited.flatMap fun entry => addedFor entry.1 entry.2) api after

theorem not_mem_flatMap_writtenFor {audited : List (String × Settings)}
    (h : type ∉ audited.map (·.1)) {id : String} (hid : id ∈ resolversOf type) :
    id ∉ audited.flatMap fun entry => writtenFor entry.1 entry.2 := by
  intro hwritten
  obtain ⟨entry, hentry, hmem⟩ := List.mem_flatMap.mp hwritten
  have hne : type ≠ entry.1 := fun heq => h (List.mem_map.mpr ⟨entry, hentry, heq.symm⟩)
  exact apart_resolvers.not_mem_map_nameFor hne hid (writtenFor_subset _ _ hmem)

theorem AllCarriedOut.cons {audited : List (String × Settings)}
    (hframe : StackFrame (writtenFor type settings) (addedFor type settings) api between)
    (h : CarriedOut config type settings api between)
    (hrest : AllCarriedOut config audited between after) (hfresh : type ∉ audited.map (·.1)) :
    AllCarriedOut config ((type, settings) :: audited) api after where
  carriedOut := by
    intro entry hentry
    rcases List.mem_cons.mp hentry with rfl | hentry
    · -- The work on the later types comes after and does not meet that on this one.
      refine h.congr (.refl api : StackFrame [] [] api api) hrest.frame (fun _ _ => List.not_mem_nil) ?_
      intro id hid
      have hnot := not_mem_flatMap_writtenFor hfresh hid
      refine ⟨hnot, fun hadded => hnot ?_⟩
      obtain ⟨other, hother, hmem⟩ := List.mem_flatMap.mp hadded
      exact List.mem_flatMap.mpr ⟨other, hother, addedFor_subset _ _ hmem⟩
    · -- The work on this type comes before and does not meet that on a later one.
      refine (hrest.carriedOut entry hentry).congr hframe (.refl after : StackFrame [] [] after after) ?_
        fun _ _ => ⟨List.not_mem_nil, List.not_mem_nil⟩
      intro id hid hwritten
      have hne : entry.1 ≠ type := fun heq => hfresh (List.mem_map.mpr ⟨entry, hentry, heq⟩)
      exact apart_resolvers.not_mem_map_nameFor hne hid (writtenFor_subset _ _ hwritten)
  frame := hframe.trans hrest.frame

/-- The run: what is done for types of different names is carried out by the stack for all of them. -/
theorem targetsEffect_carriesOut {targets : List (ObjectType × Directive)}
    (hnodup : (targets.map (·.1.name)).Nodup) (h : targetsEffect config targets api = .ok after) :
    ∃ audited, List.Forall₂ Asks targets audited ∧ AllCarriedOut config audited api after := by
  induction targets generalizing api with
  | nil =>
    obtain rfl := Except.ok.inj h
    exact ⟨[], .nil, fun _ hmem => absurd hmem List.not_mem_nil, .refl api⟩
  | cons first rest ih =>
    obtain ⟨next, hfirst, hrest⟩ := Except.foldlM_cons_eq_ok_iff.mp h
    obtain ⟨settings, hread, hsteps⟩ := targetEffect_cases hfirst
    obtain ⟨hfresh, hnodupRest⟩ := List.nodup_cons.mp hnodup
    obtain ⟨hcarried, hframe⟩ := stepsEffect_carriesOut hsteps
    obtain ⟨audited, hasks, hall⟩ := ih hnodupRest hrest
    rw [← names_of_asks hasks] at hfresh
    exact ⟨(first.1.name, settings) :: audited, .cons ⟨rfl, hread⟩ hasks,
      .cons hframe hcarried hall hfresh⟩

/-- **The stack that auditing leaves carries out exactly what the annotations ask for.** For every
annotated type with its settings, the create and update resolvers have their templates in front of
their original requests, and the resolver of the soft delete mutation, if one is asked for, runs both
in front of the original update request. All else in the stack and its mapping is as it was, in its
order, and what is new comes at the end in the order of the types. -/
theorem auditAll_carriesOut {names : List String} (hkeyed : api.schema.Keyed)
    (h : (auditAll config).onApi api = (.ok names, .direct after)) :
    ∃ audited, List.Forall₂ Asks (annotated api.schema) audited ∧
      AllCarriedOut config audited api after :=
  targetsEffect_carriesOut (nodup_annotated hkeyed) (targetsEffect_of_onApi_auditAll h)

theorem auditAll_carriesOut_journal :
    journal.schema.Keyed ∧ (annotated journal.schema).map (·.1.name) = ["Post", "Mutation"] ∧
    ∃ names after, (auditAll {}).onApi journal = (.ok names, .direct after) ∧
      ∃ audited, List.Forall₂ Asks (annotated journal.schema) audited ∧
        AllCarriedOut {} audited journal after := by
  obtain ⟨names, after, h⟩ := exists_onApi_auditAll_journal
  exact ⟨keyed_journal, by decide, names, after, h, auditAll_carriesOut keyed_journal h⟩

end AuditFields.Audit
