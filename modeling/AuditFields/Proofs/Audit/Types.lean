import AuditFields.Proofs.Audit.Contract
import AuditFields.Proofs.Audit.Settings
import AuditFields.Proofs.Audit.Upkeep

/-!
# What auditing does to types

The work on a type reads and writes whole definitions, under four names of its own and under that of
the mutation root, and a later step may write over what an earlier one wrote. What comes of it is said
of each name by itself: what stands under a name after the work on a type is a function of what stood
there before (`typeStep`), so the run over all types is a fold for every name. Which names there are,
and everything in a schema that is no type, is said by `SchemaFrame`.
-/

namespace AuditFields.Audit

open Schema

variable {config : Config} {settings : Settings} {type : String} {api after : Api}

/-! ## What is found under a name -/

/-- The names of the inputs that clients may not set bookkeeping fields in. -/
def strippedInputs (type : String) : List String :=
  [inputName type .create, inputName type .update]

/-- What the work on a type makes of what stands under a name, apart from its mutation. -/
def typeAfter (settings : Settings) (type name : String) :
    Option TypeDefinition → Option TypeDefinition
  | none =>
    if settings.softDelete ∧ name = Artifact.softDeleteInput.nameFor type then
      some (.input (deletionInput type))
    else none
  | some (.object object) =>
    if name = type then some (.object (object.addFields (lackedFields settings object)))
    else some (.object object)
  | some (.input input) =>
    if name ∈ strippedInputs type then some (.input (withoutAuditFields settings input))
    else some (.input input)
  | some other => some other

/-- An input type without bookkeeping fields, and any other definition as it is. -/
def stripped (settings : Settings) : TypeDefinition → TypeDefinition
  | .input input => .input (withoutAuditFields settings input)
  | other => other

/-- An object type with the fields that it lacks, and any other definition as it is. -/
def completed (settings : Settings) : TypeDefinition → TypeDefinition
  | .object object => .object (object.addFields (lackedFields settings object))
  | other => other

/-- The mutations that are added for a type. -/
def mutationsFor (type : String) (settings : Settings) : List Field :=
  if settings.softDelete then [deletionMutation type] else []

/-- What stands under a name once the mutations of a type are in the root: fields at the end of an
object type, or a new one. -/
def withMutations (mutationName : String) (mutations : List Field) (name : String)
    (found : Option TypeDefinition) : Option TypeDefinition :=
  if name = mutationName ∧ mutations ≠ [] then
    some (.object (((found.bind TypeDefinition.object?).getD (.plain name [])).addFields mutations))
  else found

theorem input?_withMutations {mutationName name : String} {found : Option TypeDefinition}
    (h : ∀ input, found = some (.input input) → name ≠ mutationName) (mutations : List Field) :
    (withMutations mutationName mutations name found).bind TypeDefinition.input? =
      found.bind TypeDefinition.input? := by
  unfold withMutations
  split
  · next hroot =>
    have hnone : found.bind TypeDefinition.input? = none :=
      Option.eq_none_iff_forall_ne_some.mpr fun input hinput =>
        h input (bind_input?_eq_some_iff.mp hinput) hroot.1
    rw [hnone]
    rfl
  · rfl

/-! ## The steps -/

theorem schema_of_requestEffect {id : String} {snippet : RequestTemplate}
    (h : requestEffect id snippet api = .ok after) : after.schema = api.schema := by
  rcases requestEffect_cases h with ⟨_, rfl⟩ | ⟨resolver, request, _, _, rfl⟩
  · rfl
  · rfl

theorem type?_apply_mutations (api : Api) (fields : List Field) (hfields : fields ≠ []) (name : String) :
    (api.apply (.mutations fields)).type? name =
      withMutations api.mutationName fields name (api.type? name) := by
  rw [Api.type?_apply, withMutations]
  by_cases hname : api.mutationName = name
  · subst hname
    simp [shownAfter, Edit.typeWritten, hfields]
  · simp [shownAfter, Edit.typeWritten, hname, Ne.symm hname]

/-- The input of the soft delete mutation, under its name. -/
def deletionInputUnder (type name : String) : Option TypeDefinition :=
  if name = Artifact.softDeleteInput.nameFor type then some (.input (deletionInput type)) else none

theorem type?_deletionInputEdits (type : String) (api : Api) (name : String) :
    (api.applyAll (deletionInputEdits type api)).type? name =
      (api.type? name).or (deletionInputUnder type name) := by
  unfold deletionInputEdits deletionInputUnder
  cases hfound : api.type? (Artifact.softDeleteInput.nameFor type) with
  | none =>
    rw [Option.isNone_none, if_pos rfl, Api.applyAll_cons, Api.applyAll_nil, Api.type?_apply]
    by_cases hname : name = Artifact.softDeleteInput.nameFor type
    · subst hname
      rw [hfound, if_pos rfl]
      exact if_pos rfl
    · rw [if_neg hname, Option.or_none]
      exact if_neg fun heq => hname heq.symm
  | some definition =>
    by_cases hname : name = Artifact.softDeleteInput.nameFor type
    · subst hname
      rw [hfound]
      exact hfound
    · rw [if_neg hname, Option.or_none]
      rfl

theorem type?_of_deletionIfAsked (h : deletionIfAsked config settings type api = .ok after)
    (name : String) :
    after.type? name =
      (withMutations api.mutationName (mutationsFor type settings) name (api.type? name)).or
        (if settings.softDelete then deletionInputUnder type name else none) := by
  rcases deletionIfAsked_cases h with ⟨hsoft, rfl⟩ | ⟨update, request, hsoft, _, _, rfl⟩
  · simp [mutationsFor, withMutations, hsoft]
  · have hroot : ((api.applyAll (deletionInputEdits type api)).apply
        (.mutations [deletionMutation type])).type? name = _ :=
      type?_apply_mutations _ _ (List.cons_ne_nil _ _) name
    rw [Api.mutationName_applyAll, type?_deletionInputEdits] at hroot
    refine Eq.trans hroot ?_
    simp only [mutationsFor, hsoft, if_true, withMutations]
    -- The input does not matter for the root, which is an object type in any case.
    split
    · cases api.type? name with
      | some definition => rfl
      | none =>
        unfold deletionInputUnder
        split
        · rfl
        · rfl
    · rfl

theorem type?_of_deletionIfAsked_of_ne (h : deletionIfAsked config settings type api = .ok after)
    {name : String} (hname : name ≠ Artifact.softDeleteInput.nameFor type) :
    after.type? name =
      withMutations api.mutationName (mutationsFor type settings) name (api.type? name) := by
  rw [type?_of_deletionIfAsked h, deletionInputUnder, if_neg hname, ite_self, Option.or_none]

theorem type?_of_inputEffect {mutation : InputMutation} (hkeyed : api.schema.Keyed)
    (h : inputEffect settings type mutation api = .ok after) (name : String) :
    after.type? name =
      if name = inputName type mutation then (api.type? name).map (stripped settings)
      else api.type? name := by
  rcases inputEffect_cases h with ⟨hnone, rfl⟩ | ⟨input, hinput, _, rfl⟩
  · split
    · next hname =>
      subst hname
      cases hfound : after.type? (inputName type mutation) with
      | none => rfl
      | some definition =>
        cases definition with
        | input input => exact absurd hfound (hnone input)
        | _ => rfl
    · rfl
  · have hname : input.name = inputName type mutation := hkeyed.name_of_get? hinput
    rw [Api.type?_apply]
    by_cases heq : name = inputName type mutation
    · subst heq
      rw [if_pos rfl, hinput]
      exact if_pos hname
    · rw [if_neg heq]
      exact if_neg fun hwritten => heq (hwritten.symm.trans hname)

theorem type?_of_fieldsEffect (hkeyed : api.schema.Keyed)
    (h : fieldsEffect settings type api = .ok after) (name : String) :
    after.type? name =
      if name = type then (api.type? name).map (completed settings) else api.type? name := by
  rcases fieldsEffect_cases h with ⟨hnone, rfl⟩ | ⟨object, added, hobject, hmissing, hafter⟩
  · split
    · next hname =>
      subst hname
      cases hfound : after.type? name with
      | none => rfl
      | some definition =>
        cases definition with
        | object object => exact absurd hfound (hnone object)
        | _ => rfl
    · rfl
  · have hname : object.name = type := hkeyed.name_of_get? hobject
    obtain rfl : lackedFields settings object = added := by
      rw [missingFields_eq] at hmissing
      obtain ⟨_, _, hadded⟩ := Except.map_eq_ok_iff.mp hmissing
      exact hadded
    by_cases heq : name = type
    · subst heq
      rw [if_pos rfl, hobject]
      rcases hafter with ⟨hadded, rfl⟩ | rfl
      · simp [completed, hadded, ObjectType.addFields_nil, hobject]
      · rw [Api.type?_apply]
        exact if_pos hname
    · rw [if_neg heq]
      rcases hafter with ⟨_, rfl⟩ | rfl
      · rfl
      · rw [Api.type?_apply]
        exact if_neg fun hwritten => heq (hwritten.symm.trans hname)

theorem inputName_ne_self (type : String) (mutation : InputMutation) :
    inputName type mutation ≠ type := by
  cases mutation with
  | create => exact Artifact.nameFor_ne_self rfl type
  | update => exact Artifact.nameFor_ne_self rfl type

theorem softDeleteInput_ne_inputName (type other : String) (mutation : InputMutation) :
    Artifact.softDeleteInput.nameFor type ≠ inputName other mutation := by
  intro heq
  cases mutation with
  | create => cases ((apart_inputs.nameFor_eq_iff (by decide) (by decide)).mp heq).1
  | update => cases ((apart_inputs.nameFor_eq_iff (by decide) (by decide)).mp heq).1

/-- What the steps after the mutations make of what stands under a name. They are about different
names, so no step meets what another one made. -/
theorem typeAfter_eq (settings : Settings) (type name : String) (found : Option TypeDefinition) :
    typeAfter settings type name found =
      let added := found.or (if settings.softDelete then deletionInputUnder type name else none)
      let hidden := if name = inputName type .create then added.map (stripped settings) else added
      let bare := if name = inputName type .update then hidden.map (stripped settings) else hidden
      if name = type then bare.map (completed settings) else bare := by
  cases found with
  | none =>
    by_cases hname : name = Artifact.softDeleteInput.nameFor type
    · subst hname
      have hself : Artifact.softDeleteInput.nameFor type ≠ type := Artifact.nameFor_ne_self rfl type
      have hinput := softDeleteInput_ne_inputName type type
      cases hsoft : settings.softDelete with
      | false => simp [typeAfter, hsoft]
      | true => simp [typeAfter, deletionInputUnder, hsoft, hself, hinput]
    · simp [typeAfter, deletionInputUnder, hname]
  | some definition =>
    cases definition with
    | object object => simp [typeAfter, stripped, completed]
    | input input =>
      by_cases hcreate : name = inputName type .create
      · subst hcreate
        have hdifferent := inputName_create_ne_update type
        have hself := inputName_ne_self type .create
        simp [typeAfter, stripped, strippedInputs, hdifferent, hself]
      · by_cases hupdate : name = inputName type .update
        · subst hupdate
          have hself := inputName_ne_self type .update
          simp [typeAfter, stripped, strippedInputs, hcreate, hself]
        · simp [typeAfter, completed, strippedInputs, hcreate, hupdate]
    | _ => simp [typeAfter, stripped, completed]

/-- The APIs between the steps that change the schema. -/
theorem stepsEffect_schema_cases (hkeyed : api.schema.Keyed)
    (h : stepsEffect config settings type api = .ok after) :
    ∃ updated deleted hidden bare, updated.schema = api.schema ∧
      deletionIfAsked config settings type updated = .ok deleted ∧ deleted.schema.Keyed ∧
      inputEffect settings type .create deleted = .ok hidden ∧ hidden.schema.Keyed ∧
      inputEffect settings type .update hidden = .ok bare ∧ bare.schema.Keyed ∧
      fieldsEffect settings type bare = .ok after ∧ after.schema.Keyed := by
  obtain ⟨created, updated, deleted, hidden, bare, hcreated, hupdated, hdeleted, hhidden, hbare,
    hfields⟩ := stepsEffect_cases h
  have hschema : updated.schema = api.schema :=
    (schema_of_requestEffect hupdated).trans (schema_of_requestEffect hcreated)
  have hkeyedDeleted := (develops_deletionIfAsked hdeleted).keyed (hschema ▸ hkeyed)
  have hkeyedHidden := (develops_inputEffect hkeyedDeleted hhidden).keyed hkeyedDeleted
  have hkeyedBare := (develops_inputEffect hkeyedHidden hbare).keyed hkeyedHidden
  have hkeyedAfter := (develops_fieldsEffect hkeyedBare hfields).keyed hkeyedBare
  exact ⟨updated, deleted, hidden, bare, hschema, hdeleted, hkeyedDeleted, hhidden, hkeyedHidden,
    hbare, hkeyedBare, hfields, hkeyedAfter⟩

theorem keyed_of_stepsEffect (hkeyed : api.schema.Keyed)
    (h : stepsEffect config settings type api = .ok after) : after.schema.Keyed := by
  obtain ⟨_, _, _, _, _, _, _, _, _, _, _, _, hkeyedAfter⟩ := stepsEffect_schema_cases hkeyed h
  exact hkeyedAfter

/-- The step: what stands under a name after the work on a type depends on what stood there alone. -/
theorem type?_of_stepsEffect (hkeyed : api.schema.Keyed)
    (h : stepsEffect config settings type api = .ok after) (name : String) :
    after.type? name = typeAfter settings type name
      (withMutations api.mutationName (mutationsFor type settings) name (api.type? name)) := by
  obtain ⟨updated, deleted, hidden, bare, hschema, hdeleted, hkeyedDeleted, hhidden, hkeyedHidden,
    hbare, hkeyedBare, hfields, _⟩ := stepsEffect_schema_cases hkeyed h
  have hroot : updated.mutationName = api.mutationName := congrArg Schema.mutationName hschema
  have hfound : updated.type? name = api.type? name := congrArg (Schema.get? · name) hschema
  rw [type?_of_fieldsEffect hkeyedBare hfields, type?_of_inputEffect hkeyedHidden hbare,
    type?_of_inputEffect hkeyedDeleted hhidden, type?_of_deletionIfAsked hdeleted, hroot, hfound,
    typeAfter_eq]

/-! ## What stays -/

/-- From one schema to the other, the added names have come to the end where they were not there, and
nothing has changed but the types and the name of a mutation root that was not given. -/
structure SchemaFrame (added : List String) (schema after : Schema) : Prop where
  typeOrder : after.types.names = added.foldl Entries.withName schema.types.names
  directiveDefinitions : after.directiveDefinitions = schema.directiveDefinitions
  extensions : after.extensions = schema.extensions
  roots : after.roots.map (fun roots => (roots.directives, roots.query, roots.subscription)) =
    schema.roots.map fun roots => (roots.directives, roots.query, roots.subscription)
  mutationName : after.mutationName = schema.mutationName

namespace SchemaFrame

variable {schema between final : Schema} {added more : List String}

theorem refl (schema : Schema) : SchemaFrame [] schema schema :=
  ⟨rfl, rfl, rfl, rfl, rfl⟩

theorem trans (h : SchemaFrame added schema between) (hnext : SchemaFrame more between final) :
    SchemaFrame (added ++ more) schema final where
  typeOrder := by rw [hnext.typeOrder, h.typeOrder, List.foldl_append]
  directiveDefinitions := hnext.directiveDefinitions.trans h.directiveDefinitions
  extensions := hnext.extensions.trans h.extensions
  roots := hnext.roots.trans h.roots
  mutationName := hnext.mutationName.trans h.mutationName

theorem of_mem {name : String} (h : SchemaFrame [name] schema final) (hmem : name ∈ schema.types.names) :
    SchemaFrame [] schema final :=
  { h with typeOrder := h.typeOrder.trans (Entries.withName_of_mem hmem) }

theorem put (schema : Schema) (definition : TypeDefinition) :
    SchemaFrame [definition.name] schema (schema.put definition) :=
  ⟨Entries.names_put _ _ _, rfl, rfl, rfl, rfl⟩

theorem put_of_get? (definition : TypeDefinition) {found : TypeDefinition}
    (h : schema.get? definition.name = some found) : SchemaFrame [] schema (schema.put definition) :=
  (put schema definition).of_mem (Entries.mem_names_of_get? h)

theorem addMutations (schema : Schema) (fields : List Field) :
    SchemaFrame [schema.mutationName] schema (schema.addMutations fields) := by
  have hname : (schema.addMutations fields).mutationName = schema.mutationName :=
    Api.mutationName_apply { schema } (.mutations fields)
  revert hname
  unfold Schema.addMutations
  dsimp only
  split
  · exact fun hname => ⟨Entries.names_put _ _ _, rfl, rfl, rfl, hname⟩
  · intro hname
    refine ⟨Entries.names_put _ _ _, rfl, rfl, ?_, hname⟩
    cases schema.roots with
    | none => rfl
    | some roots => rfl

end SchemaFrame

/-- The types that may be added for a type. -/
def addedTypes (mutationName type : String) (settings : Settings) : List String :=
  if settings.softDelete then [Artifact.softDeleteInput.nameFor type, mutationName] else []

theorem frame_of_deletionIfAsked (h : deletionIfAsked config settings type api = .ok after) :
    SchemaFrame (addedTypes api.mutationName type settings) api.schema after.schema := by
  rcases deletionIfAsked_cases h with ⟨hsoft, rfl⟩ | ⟨update, request, hsoft, _, _, rfl⟩
  · simp only [addedTypes, hsoft]
    exact .refl _
  · have hinput : SchemaFrame [Artifact.softDeleteInput.nameFor type] api.schema
        (api.applyAll (deletionInputEdits type api)).schema := by
      unfold deletionInputEdits
      cases hfound : api.type? (Artifact.softDeleteInput.nameFor type) with
      | none => exact .put api.schema (.input (deletionInput type))
      | some found =>
        exact { SchemaFrame.refl api.schema with
          typeOrder := (Entries.withName_of_mem (Entries.mem_names_of_get? hfound)).symm }
    have hroot := SchemaFrame.addMutations (api.applyAll (deletionInputEdits type api)).schema
      [deletionMutation type]
    rw [← Api.mutationName, Api.mutationName_applyAll] at hroot
    simp only [addedTypes, hsoft, if_true]
    exact hinput.trans hroot

theorem frame_of_inputEffect {mutation : InputMutation} (hkeyed : api.schema.Keyed)
    (h : inputEffect settings type mutation api = .ok after) :
    SchemaFrame [] api.schema after.schema := by
  rcases inputEffect_cases h with ⟨_, rfl⟩ | ⟨input, hinput, _, rfl⟩
  · exact .refl _
  · have hname : input.name = inputName type mutation := hkeyed.name_of_get? hinput
    rw [← hname] at hinput
    exact SchemaFrame.put_of_get? (.input (withoutAuditFields settings input)) hinput

theorem frame_of_fieldsEffect (hkeyed : api.schema.Keyed)
    (h : fieldsEffect settings type api = .ok after) : SchemaFrame [] api.schema after.schema := by
  rcases fieldsEffect_cases h with ⟨_, rfl⟩ | ⟨object, added, hobject, _, ⟨_, rfl⟩ | rfl⟩
  · exact .refl _
  · exact .refl _
  · have hname : object.name = type := hkeyed.name_of_get? hobject
    rw [← hname] at hobject
    exact SchemaFrame.put_of_get? (.object (object.addFields added)) hobject

theorem frame_of_stepsEffect (hkeyed : api.schema.Keyed)
    (h : stepsEffect config settings type api = .ok after) :
    SchemaFrame (addedTypes api.mutationName type settings) api.schema after.schema := by
  obtain ⟨updated, deleted, hidden, bare, hschema, hdeleted, hkeyedDeleted, hhidden, hkeyedHidden,
    hbare, hkeyedBare, hfields, _⟩ := stepsEffect_schema_cases hkeyed h
  have hframe := (frame_of_deletionIfAsked hdeleted).trans
    ((frame_of_inputEffect hkeyedDeleted hhidden).trans
      ((frame_of_inputEffect hkeyedHidden hbare).trans (frame_of_fieldsEffect hkeyedBare hfields)))
  simpa only [List.append_nil, Api.mutationName, hschema] using hframe

/-! ## All types -/

/-- What annotated types ask for: the settings that the annotation of each gives, by the name of the
type. -/
def asked (targets : List (ObjectType × Directive)) : Entries Settings :=
  targets.map fun target => (target.1.name, Settings.given target.2)

theorem names_asked (targets : List (ObjectType × Directive)) :
    (asked targets).names = targets.map (·.1.name) := by
  rw [asked, Entries.names, List.map_map]
  rfl

/-- What the work on a type makes of what stands under a name. -/
def typeStep (mutationName name : String) (found : Option TypeDefinition)
    (entry : String × Settings) : Option TypeDefinition :=
  typeAfter entry.2 entry.1 name
    (withMutations mutationName (mutationsFor entry.1 entry.2) name found)

theorem stepsEffect_of_targetEffect {target : ObjectType × Directive}
    (h : targetEffect config target api = .ok after) :
    stepsEffect config (Settings.given target.2) target.1.name api = .ok after := by
  obtain ⟨settings, hread, hsteps⟩ := targetEffect_cases h
  rw [Settings.read_eq] at hread
  obtain ⟨_, _, rfl⟩ := Except.map_eq_ok_iff.mp hread
  exact hsteps

/-- The run: the types are as the work on one after the other makes them, and all else stays. -/
theorem targetsEffect_types {targets : List (ObjectType × Directive)} (hkeyed : api.schema.Keyed)
    (h : targetsEffect config targets api = .ok after) :
    (∀ name, after.type? name =
      (asked targets).foldl (typeStep api.mutationName name) (api.type? name)) ∧
    SchemaFrame ((asked targets).flatMap fun entry => addedTypes api.mutationName entry.1 entry.2)
      api.schema after.schema := by
  induction targets generalizing api with
  | nil =>
    obtain rfl := Except.ok.inj h
    exact ⟨fun _ => rfl, .refl _⟩
  | cons first rest ih =>
    obtain ⟨next, hfirst, hrest⟩ := Except.foldlM_cons_eq_ok_iff.mp h
    have hsteps := stepsEffect_of_targetEffect hfirst
    obtain ⟨htypes, hframe⟩ := ih (keyed_of_stepsEffect hkeyed hsteps) hrest
    have hframeFirst := frame_of_stepsEffect hkeyed hsteps
    have hname : next.mutationName = api.mutationName := hframeFirst.mutationName
    rw [hname] at hframe
    refine ⟨fun name => ?_, hframeFirst.trans hframe⟩
    rw [htypes, hname, type?_of_stepsEffect hkeyed hsteps]
    rfl

end AuditFields.Audit
