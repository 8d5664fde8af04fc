import AuditFields.Proofs.Audit.Effect
import AuditFields.Proofs.Schema.Keyed

/-!
# What a step can do

For each step of the work on an annotated type, everything that can have happened if it succeeded:
either it found nothing to do, or it made one known change to what it found. Before that, what the
annotated types of a schema are: object types of different names.
-/

namespace AuditFields.Audit

open Schema

/-! ## The annotated types -/

theorem get?_of_mem_annotated {schema : Schema} (h : schema.Keyed) {target : ObjectType × Directive}
    (hmem : target ∈ annotated schema) : schema.get? target.1.name = some (.object target.1) := by
  obtain ⟨object, hobject, hdirective⟩ := List.mem_filterMap.mp hmem
  obtain ⟨directive, _, rfl⟩ := Option.map_eq_some_iff.mp hdirective
  exact h.get?_of_mem_objects hobject

theorem annotated_sublist (schema : Schema) :
    ((annotated schema).map (·.1)).Sublist schema.objects := by
  unfold annotated
  induction schema.objects with
  | nil => exact List.Sublist.refl _
  | cons object rest ih =>
    rw [List.filterMap_cons]
    cases object.directive? Naming.auditDirective with
    | none => exact ih.cons object
    | some directive => exact ih.cons_cons object

theorem nodup_annotated {schema : Schema} (h : schema.Keyed) :
    ((annotated schema).map (·.1.name)).Nodup := by
  have hnames := ((annotated_sublist schema).map (·.name)).nodup h.nodup_objects
  rwa [List.map_map] at hnames

/-! ## The steps -/

variable {config : Config} {settings : Settings} {type : String} {api after : Api}

theorem resolverWithRequest_eq_ok_iff {id : String} {resource : Resource} {resolver : Resolver}
    {request : String} :
    resolverWithRequest id resource = .ok (resolver, request) ↔
      resource = .resolver resolver ∧ resolver.requestTemplate = some request := by
  cases resource with
  | other value => simp [resolverWithRequest]
  | resolver found =>
    cases hrequest : found.requestTemplate with
    | none =>
      simp only [resolverWithRequest, hrequest, reduceCtorEq, Resource.resolver.injEq, false_iff]
      rintro ⟨rfl, h⟩
      rw [hrequest] at h
      cases h
    | some text =>
      simp only [resolverWithRequest, hrequest, Except.ok.injEq, Prod.mk.injEq,
        Resource.resolver.injEq]
      constructor
      · rintro ⟨rfl, rfl⟩
        exact ⟨rfl, hrequest⟩
      · rintro ⟨rfl, h⟩
        rw [hrequest] at h
        exact ⟨rfl, Option.some.inj h⟩

theorem requestEffect_cases {id : String} {snippet : RequestTemplate}
    (h : requestEffect id snippet api = .ok after) :
    (api.resource? id = none ∧ after = api) ∨
    ∃ resolver request, api.resource? id = some (.resolver resolver) ∧
      resolver.requestTemplate = some request ∧
      after = api.apply (.resource id (.resolver (prepend snippet request resolver))) := by
  rw [requestEffect] at h
  cases hresource : api.resource? id with
  | none =>
    rw [hresource] at h
    exact Or.inl ⟨rfl, (Except.ok.inj h).symm⟩
  | some resource =>
    rw [hresource] at h
    obtain ⟨⟨resolver, request⟩, hfound, hafter⟩ := Except.map_eq_ok_iff.mp h
    obtain ⟨rfl, hrequest⟩ := resolverWithRequest_eq_ok_iff.mp hfound
    exact Or.inr ⟨resolver, request, rfl, hrequest, hafter.symm⟩

theorem deletionIfAsked_cases (h : deletionIfAsked config settings type api = .ok after) :
    (settings.softDelete = false ∧ after = api) ∨
    ∃ update request, settings.softDelete = true ∧
      api.resource? (Artifact.updateResolver.nameFor type) = some (.resolver update) ∧
      update.requestTemplate = some request ∧
      after = (api.applyAll (deletionInputEdits type api)).applyAll
        (deletionEdits config type (templateOnCreate config settings) api.mutationName
          (update, request)) := by
  rw [deletionIfAsked] at h
  cases hsoft : settings.softDelete with
  | false =>
    rw [hsoft] at h
    exact Or.inl ⟨rfl, (Except.ok.inj h).symm⟩
  | true =>
    rw [hsoft, if_pos rfl] at h
    obtain ⟨⟨update, request⟩, hfound, hafter⟩ := Except.map_eq_ok_iff.mp h
    cases hresource : api.resource? (Artifact.updateResolver.nameFor type) with
    | none =>
      rw [hresource] at hfound
      cases hfound
    | some resource =>
      rw [hresource] at hfound
      obtain ⟨rfl, hrequest⟩ := resolverWithRequest_eq_ok_iff.mp hfound
      exact Or.inr ⟨update, request, rfl, rfl, hrequest, hafter.symm⟩

theorem bind_input?_eq_some_iff {found : Option TypeDefinition} {input : InputType} :
    found.bind TypeDefinition.input? = some input ↔ found = some (.input input) := by
  cases found with
  | none => simp
  | some definition => cases definition <;> simp [TypeDefinition.input?]

theorem bind_object?_eq_some_iff {found : Option TypeDefinition} {object : ObjectType} :
    found.bind TypeDefinition.object? = some object ↔ found = some (.object object) := by
  cases found with
  | none => simp
  | some definition => cases definition <;> simp [TypeDefinition.object?]

theorem inputEffect_cases {mutation : InputMutation}
    (h : inputEffect settings type mutation api = .ok after) :
    ((∀ input, api.type? (inputName type mutation) ≠ some (.input input)) ∧ after = api) ∨
    ∃ input, api.type? (inputName type mutation) = some (.input input) ∧
      (withoutAuditFields settings input).fields ≠ [] ∧
      after = api.apply (.type (.input (withoutAuditFields settings input))) := by
  rw [inputEffect] at h
  cases hinput : (api.type? (inputName type mutation)).bind TypeDefinition.input? with
  | none =>
    rw [hinput] at h
    refine Or.inl ⟨fun input hfound => ?_, (Except.ok.inj h).symm⟩
    rw [bind_input?_eq_some_iff.mpr hfound] at hinput
    cases hinput
  | some input =>
    rw [hinput] at h
    dsimp only at h
    split at h
    · cases h
    · next hfields =>
      refine Or.inr ⟨input, bind_input?_eq_some_iff.mp hinput, ?_, (Except.ok.inj h).symm⟩
      exact fun hempty => hfields (List.isEmpty_iff.mpr hempty)

theorem fieldsEffect_cases (h : fieldsEffect settings type api = .ok after) :
    ((∀ object, api.type? type ≠ some (.object object)) ∧ after = api) ∨
    ∃ object added, api.type? type = some (.object object) ∧
      missingFields settings object type = .ok added ∧
      (added = [] ∧ after = api ∨ after = api.apply (.type (.object (object.addFields added)))) := by
  rw [fieldsEffect] at h
  cases hobject : (api.type? type).bind TypeDefinition.object? with
  | none =>
    rw [hobject] at h
    refine Or.inl ⟨fun object hfound => ?_, (Except.ok.inj h).symm⟩
    rw [bind_object?_eq_some_iff.mpr hfound] at hobject
    cases hobject
  | some object =>
    rw [hobject] at h
    dsimp only at h
    have hfound := bind_object?_eq_some_iff.mp hobject
    cases hmissing : missingFields settings object type with
    | error failure =>
      rw [hmissing] at h
      cases h
    | ok added =>
      rw [hmissing] at h
      cases added with
      | nil => exact Or.inr ⟨object, [], hfound, hmissing, Or.inl ⟨rfl, (Except.ok.inj h).symm⟩⟩
      | cons first rest =>
        exact Or.inr ⟨object, first :: rest, hfound, hmissing, Or.inr (Except.ok.inj h).symm⟩

/-- The APIs between the steps. -/
theorem stepsEffect_cases (h : stepsEffect config settings type api = .ok after) :
    ∃ created updated deleted hidden stripped,
      requestEffect (Artifact.createResolver.nameFor type) (templateOnCreate config settings) api =
        .ok created ∧
      requestEffect (Artifact.updateResolver.nameFor type) (templateOnUpdate config settings) created =
        .ok updated ∧
      deletionIfAsked config settings type updated = .ok deleted ∧
      inputEffect settings type .create deleted = .ok hidden ∧
      inputEffect settings type .update hidden = .ok stripped ∧
      fieldsEffect settings type stripped = .ok after := by
  obtain ⟨created, hcreated, h⟩ := Except.bind_eq_ok_iff.mp h
  obtain ⟨updated, hupdated, h⟩ := Except.bind_eq_ok_iff.mp h
  obtain ⟨deleted, hdeleted, h⟩ := Except.bind_eq_ok_iff.mp h
  obtain ⟨hidden, hhidden, h⟩ := Except.bind_eq_ok_iff.mp h
  obtain ⟨stripped, hstripped, h⟩ := Except.bind_eq_ok_iff.mp h
  exact ⟨created, updated, deleted, hidden, stripped, hcreated, hupdated, hdeleted, hhidden,
    hstripped, h⟩

theorem targetEffect_cases {target : ObjectType × Directive}
    (h : targetEffect config target api = .ok after) :
    ∃ settings, Settings.read target.2 = .ok settings ∧
      stepsEffect config settings target.1.name api = .ok after := by
  obtain ⟨_, _, h⟩ := Except.bind_eq_ok_iff.mp h
  obtain ⟨settings, hread, hsteps⟩ := Except.bind_eq_ok_iff.mp h
  exact ⟨settings, hread, hsteps⟩

end AuditFields.Audit
