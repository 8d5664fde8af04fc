import AuditFields.Proofs.Audit.Types

/-!
# What auditing does to a schema

What stands under a name is changed by one of the annotated types at most, apart from the mutation root,
to which each of them may add a field: an annotated type gets the fields that it lacks, its inputs lose
their bookkeeping fields, the input of its soft delete mutation is new, and nothing else is touched. So
the fold over all types comes down to one step, or to none (`foldl_typeStep_of_mem`,
`foldl_typeStep_kept`), and at the root to the list of the mutations.
-/

namespace AuditFields.Audit

open Schema

variable {config : Config} {settings : Settings} {type : String} {api after : Api}

/-! ## One name -/

section

variable {σ : Type} {step : σ → String × Settings → σ} {entries : Entries Settings} {start : σ}

theorem foldl_eq_self (h : ∀ entry ∈ entries, step start entry = start) :
    entries.foldl step start = start := by
  induction entries with
  | nil => rfl
  | cons entry rest ih =>
    rw [List.foldl_cons, h entry List.mem_cons_self]
    exact ih fun other hother => h other (List.mem_cons_of_mem _ hother)

theorem foldl_eq_of_mem {entry : String × Settings} (hnodup : entries.names.Nodup)
    (hmem : entry ∈ entries)
    (hbefore : ∀ other : String × Settings, other.1 ≠ entry.1 → step start other = start)
    (hafter : ∀ other : String × Settings, other.1 ≠ entry.1 →
      step (step start entry) other = step start entry) :
    entries.foldl step start = step start entry := by
  obtain ⟨before, rest, rfl⟩ := List.append_of_mem hmem
  rw [Entries.names, List.map_append, List.map_cons] at hnodup
  obtain ⟨_, hrest, hdisjoint⟩ := List.nodup_append.mp hnodup
  have hfirst : before.foldl step start = start := by
    refine foldl_eq_self fun other hother => hbefore other ?_
    exact hdisjoint _ (List.mem_map_of_mem hother) _ List.mem_cons_self
  have hlast : rest.foldl step (step start entry) = step start entry := by
    refine foldl_eq_self fun other hother => hafter other fun heq => ?_
    exact (List.nodup_cons.mp hrest).1 (List.mem_map.mpr ⟨other, hother, heq⟩)
  rw [List.foldl_append, List.foldl_cons, hfirst, hlast]

end

variable {mutationName name : String} {entries : Entries Settings}

theorem typeAfter_object_self (settings : Settings) (type : String) (object : ObjectType) :
    typeAfter settings type type (some (.object object)) =
      some (.object (object.addFields (lackedFields settings object))) :=
  if_pos rfl

theorem typeAfter_object_of_ne (h : name ≠ type) (object : ObjectType) :
    typeAfter settings type name (some (.object object)) = some (.object object) :=
  if_neg h

theorem typeAfter_input_of_not_mem (h : name ∉ strippedInputs type) (input : InputType) :
    typeAfter settings type name (some (.input input)) = some (.input input) :=
  if_neg h

theorem mem_strippedInputs_iff {type name : String} :
    name ∈ strippedInputs type ↔ ∃ mutation, name = inputName type mutation := by
  constructor
  · intro h
    rcases List.mem_cons.mp h with rfl | h
    · exact ⟨.create, rfl⟩
    · exact ⟨.update, List.mem_singleton.mp h⟩
  · rintro ⟨mutation, rfl⟩
    cases mutation with
    | create => exact List.mem_cons_self
    | update => exact List.mem_cons_of_mem _ List.mem_cons_self

theorem not_mem_strippedInputs {type other : String} (h : type ≠ other) (mutation : InputMutation) :
    inputName type mutation ∉ strippedInputs other := by
  intro hmem
  obtain ⟨another, heq⟩ := mem_strippedInputs_iff.mp hmem
  refine apart_inputs.not_mem_map_nameFor h (inputName_mem_inputsOf type mutation) ?_
  rw [heq]
  exact inputName_mem_inputsOf other another

theorem softDeleteInput_not_mem_strippedInputs (type other : String) :
    Artifact.softDeleteInput.nameFor type ∉ strippedInputs other := by
  intro hmem
  obtain ⟨mutation, heq⟩ := mem_strippedInputs_iff.mp hmem
  exact softDeleteInput_ne_inputName type other mutation heq

theorem typeStep_of_ne (hname : name ≠ mutationName) (found : Option TypeDefinition)
    (entry : String × Settings) :
    typeStep mutationName name found entry = typeAfter entry.2 entry.1 name found := by
  rw [typeStep, withMutations, if_neg fun h => hname h.1]

theorem foldl_typeStep_of_mem {entry : String × Settings} {found result : Option TypeDefinition}
    (hnodup : entries.names.Nodup) (hmem : entry ∈ entries) (hroot : name ≠ mutationName)
    (hentry : typeAfter entry.2 entry.1 name found = result)
    (hothers : ∀ other : String × Settings, other.1 ≠ entry.1 →
      typeAfter other.2 other.1 name found = found ∧
        typeAfter other.2 other.1 name result = result) :
    entries.foldl (typeStep mutationName name) found = result := by
  have hstep := (typeStep_of_ne hroot found entry).trans hentry
  refine (foldl_eq_of_mem hnodup hmem (fun other hother => ?_) fun other hother => ?_).trans hstep
  · rw [typeStep_of_ne hroot, (hothers other hother).1]
  · rw [hstep, typeStep_of_ne hroot, (hothers other hother).2]

theorem foldl_typeStep_completed {entry : String × Settings} (hnodup : entries.names.Nodup)
    (hmem : entry ∈ entries) (hroot : entry.1 ≠ mutationName) (object : ObjectType) :
    entries.foldl (typeStep mutationName entry.1) (some (.object object)) =
      some (.object (object.addFields (lackedFields entry.2 object))) :=
  foldl_typeStep_of_mem hnodup hmem hroot (typeAfter_object_self _ _ _) fun _ hother =>
    ⟨typeAfter_object_of_ne hother.symm _, typeAfter_object_of_ne hother.symm _⟩

theorem foldl_typeStep_stripped {entry : String × Settings} (hnodup : entries.names.Nodup)
    (hmem : entry ∈ entries) (mutation : InputMutation)
    (hroot : inputName entry.1 mutation ≠ mutationName) (input : InputType) :
    entries.foldl (typeStep mutationName (inputName entry.1 mutation)) (some (.input input)) =
      some (.input (withoutAuditFields entry.2 input)) := by
  refine foldl_typeStep_of_mem hnodup hmem hroot ?_ fun other hother => ?_
  · exact if_pos (mem_strippedInputs_iff.mpr ⟨mutation, rfl⟩)
  · have hnot := not_mem_strippedInputs hother.symm mutation
    exact ⟨typeAfter_input_of_not_mem hnot _, typeAfter_input_of_not_mem hnot _⟩

theorem foldl_typeStep_added {entry : String × Settings} (hnodup : entries.names.Nodup)
    (hmem : entry ∈ entries) (hsoft : entry.2.softDelete = true)
    (hroot : Artifact.softDeleteInput.nameFor entry.1 ≠ mutationName) :
    entries.foldl (typeStep mutationName (Artifact.softDeleteInput.nameFor entry.1)) none =
      some (.input (deletionInput entry.1)) := by
  refine foldl_typeStep_of_mem hnodup hmem hroot (if_pos ⟨hsoft, rfl⟩) fun other hother => ⟨?_, ?_⟩
  · exact if_neg fun h => hother (Artifact.nameFor_inj h.2).symm
  · exact typeAfter_input_of_not_mem (softDeleteInput_not_mem_strippedInputs _ _) _

theorem foldl_typeStep_kept {definition : TypeDefinition} (hroot : name ≠ mutationName)
    (hname : name ∉ entries.names)
    (hinput : ∀ entry ∈ entries, name ∈ strippedInputs entry.1 → definition.input? = none) :
    entries.foldl (typeStep mutationName name) (some definition) = some definition := by
  refine foldl_eq_self fun entry hentry => ?_
  rw [typeStep_of_ne hroot]
  cases definition with
  | object object =>
    refine typeAfter_object_of_ne (fun heq => hname ?_) object
    exact List.mem_map.mpr ⟨entry, hentry, heq.symm⟩
  | input input =>
    refine typeAfter_input_of_not_mem (fun hmem => ?_) input
    cases hinput entry hentry hmem
  | _ => rfl

theorem foldl_typeStep_absent (hroot : name ≠ mutationName)
    (hname : ∀ entry ∈ entries, entry.2.softDelete = true →
      name ≠ Artifact.softDeleteInput.nameFor entry.1) :
    entries.foldl (typeStep mutationName name) none = none := by
  refine foldl_eq_self fun entry hentry => ?_
  rw [typeStep_of_ne hroot]
  exact if_neg fun h => hname entry hentry h.1 h.2

/-! ## The mutation root -/

/-- The mutations that are added, in the order of the types. -/
def mutationsOf (entries : Entries Settings) : List Field :=
  entries.flatMap fun entry => mutationsFor entry.1 entry.2

theorem typeStep_root_object {entry : String × Settings} (object : ObjectType) :
    typeStep mutationName mutationName (some (.object object)) entry =
      typeAfter entry.2 entry.1 mutationName
        (some (.object (object.addFields (mutationsFor entry.1 entry.2)))) := by
  rw [typeStep, withMutations]
  split
  · rfl
  · next h =>
    have hempty : mutationsFor entry.1 entry.2 = [] := by simpa using h
    rw [hempty, ObjectType.addFields_nil]

theorem foldl_typeStep_root_object (hroot : mutationName ∉ entries.names) (object : ObjectType) :
    entries.foldl (typeStep mutationName mutationName) (some (.object object)) =
      some (.object (object.addFields (mutationsOf entries))) := by
  induction entries generalizing object with
  | nil => simp [mutationsOf, ObjectType.addFields_nil]
  | cons entry rest ih =>
    rw [Entries.names, List.map_cons, List.mem_cons, not_or] at hroot
    obtain ⟨hne, hrest⟩ := hroot
    rw [List.foldl_cons, typeStep_root_object, typeAfter_object_of_ne hne, ih hrest,
      ObjectType.addFields_addFields]
    rfl

theorem object?_typeAfter (hname : name ≠ type) (found : Option TypeDefinition) :
    (typeAfter settings type name found).bind TypeDefinition.object? =
      found.bind TypeDefinition.object? := by
  cases found with
  | none =>
    rw [typeAfter]
    split
    · rfl
    · rfl
  | some definition =>
    cases definition with
    | object object => rw [typeAfter_object_of_ne hname]
    | input input =>
      rw [typeAfter]
      split
      · rfl
      · rfl
    | _ => rfl

theorem foldl_typeStep_root_other {found : Option TypeDefinition}
    (hfound : found.bind TypeDefinition.object? = none) (hroot : mutationName ∉ entries.names)
    (hmutations : mutationsOf entries ≠ []) :
    entries.foldl (typeStep mutationName mutationName) found =
      some (.object (.plain mutationName (mutationsOf entries))) := by
  induction entries generalizing found with
  | nil => exact absurd rfl hmutations
  | cons entry rest ih =>
    rw [Entries.names, List.map_cons, List.mem_cons, not_or] at hroot
    obtain ⟨hne, hrest⟩ := hroot
    rw [List.foldl_cons, typeStep, withMutations]
    by_cases hnone : mutationsFor entry.1 entry.2 = []
    · rw [if_neg fun h => h.2 hnone]
      have hsplit : mutationsOf (entry :: rest) = mutationsFor entry.1 entry.2 ++ mutationsOf rest := rfl
      rw [hsplit, hnone, List.nil_append] at hmutations ⊢
      exact ih ((object?_typeAfter hne found).trans hfound) hrest hmutations
    · rw [if_pos ⟨rfl, hnone⟩, hfound, typeAfter_object_of_ne hne,
        foldl_typeStep_root_object hrest]
      rfl

theorem foldl_typeStep_root_annotated (hnodup : entries.names.Nodup)
    (hmem : (mutationName, settings) ∈ entries) (object : ObjectType) :
    ∃ before rest, entries = before ++ (mutationName, settings) :: rest ∧
      entries.foldl (typeStep mutationName mutationName) (some (.object object)) =
        let started := object.addFields (mutationsOf before ++ mutationsFor mutationName settings)
        some (.object ((started.addFields (lackedFields settings started)).addFields
          (mutationsOf rest))) := by
  obtain ⟨before, rest, rfl⟩ := List.append_of_mem hmem
  rw [Entries.names, List.map_append, List.map_cons] at hnodup
  obtain ⟨_, hrest, hdisjoint⟩ := List.nodup_append.mp hnodup
  have hbefore : mutationName ∉ Entries.names before := fun h =>
    hdisjoint _ h _ List.mem_cons_self rfl
  refine ⟨before, rest, rfl, ?_⟩
  rw [List.foldl_append, List.foldl_cons, foldl_typeStep_root_object hbefore, typeStep_root_object,
    ObjectType.addFields_addFields]
  dsimp only
  rw [typeAfter_object_self, foldl_typeStep_root_object (List.nodup_cons.mp hrest).1]

/-! ## The schema -/

/-- From one schema to the other, the types have changed as annotated types ask for, and nothing else
has. -/
structure SchemaAudited (entries : Entries Settings) (schema after : Schema) : Prop where
  /-- No type is gone or has moved, and what is new comes at the end: for each type with a soft delete
  mutation its input and the mutation root, where they were not there. -/
  frame : SchemaFrame
    (entries.flatMap fun entry => addedTypes schema.mutationName entry.1 entry.2) schema after
  kept {name : String} {definition : TypeDefinition} (h : schema.get? name = some definition)
    (hroot : name ≠ schema.mutationName) (hname : name ∉ entries.names)
    (hinput : ∀ entry ∈ entries, ∀ mutation, name = inputName entry.1 mutation →
      definition.input? = none) : after.get? name = some definition
  /-- An annotated type has the fields that it lacked at its end. -/
  annotated {type : String} {settings : Settings} (hmem : (type, settings) ∈ entries)
    (hroot : type ≠ schema.mutationName) :
    ∃ object, schema.get? type = some (.object object) ∧
      after.get? type = some (.object (object.addFields (lackedFields settings object)))
  /-- An input of an annotated type has lost its bookkeeping fields and nothing else. -/
  input {type : String} {settings : Settings} {mutation : InputMutation} {input : InputType}
    (hmem : (type, settings) ∈ entries) (hroot : inputName type mutation ≠ schema.mutationName)
    (h : schema.get? (inputName type mutation) = some (.input input)) :
    after.get? (inputName type mutation) = some (.input { input with
      fields := input.fields.filter fun field => !settings.isAuditName field.name })
  /-- A soft delete mutation has an input of its own, unless there was a type of its name. -/
  deletionInput {type : String} {settings : Settings} (hmem : (type, settings) ∈ entries)
    (hsoft : settings.softDelete = true)
    (hroot : Artifact.softDeleteInput.nameFor type ≠ schema.mutationName)
    (h : schema.get? (Artifact.softDeleteInput.nameFor type) = none) :
    after.get? (Artifact.softDeleteInput.nameFor type) = some (.input (deletionInput type))
  absent {name : String} (h : schema.get? name = none) (hroot : name ≠ schema.mutationName)
    (hname : ∀ entry ∈ entries, entry.2.softDelete = true →
      name ≠ Artifact.softDeleteInput.nameFor entry.1) : after.get? name = none
  /-- A mutation root that is not annotated has the soft delete mutations at its end, in the order of
  the types. -/
  root {object : ObjectType} (h : schema.get? schema.mutationName = some (.object object))
    (hroot : schema.mutationName ∉ entries.names) :
    after.get? schema.mutationName = some (.object (object.addFields (mutationsOf entries)))
  /-- A mutation root that was no object type is one that has the soft delete mutations alone. -/
  newRoot (h : ∀ object, schema.get? schema.mutationName ≠ some (.object object))
    (hmutations : mutationsOf entries ≠ []) :
    after.get? schema.mutationName =
      some (.object (.plain schema.mutationName (mutationsOf entries)))
  /-- A mutation root that is annotated has the fields that it lacked between the mutations. -/
  annotatedRoot {settings : Settings} (hmem : (schema.mutationName, settings) ∈ entries) :
    ∃ object before rest, schema.get? schema.mutationName = some (.object object) ∧
      entries = before ++ (schema.mutationName, settings) :: rest ∧
      after.get? schema.mutationName =
        let started := object.addFields
          (mutationsOf before ++ mutationsFor schema.mutationName settings)
        some (.object ((started.addFields (lackedFields settings started)).addFields
          (mutationsOf rest)))

theorem nodup_asked {schema : Schema} (h : schema.Keyed) :
    (asked (Audit.annotated schema)).names.Nodup := by
  rw [names_asked]
  exact nodup_annotated h

theorem get?_of_mem_asked {schema : Schema} (h : schema.Keyed) {entry : String × Settings}
    (hmem : entry ∈ asked (Audit.annotated schema)) :
    ∃ object, schema.get? entry.1 = some (.object object) := by
  obtain ⟨target, htarget, rfl⟩ := List.mem_map.mp hmem
  exact ⟨target.1, get?_of_mem_annotated h htarget⟩

/-- **Auditing changes a schema as the annotations ask for, and in no other way.** -/
theorem auditAll_schema {names : List String} (hkeyed : api.schema.Keyed)
    (h : (auditAll config).onApi api = (.ok names, .direct after)) :
    SchemaAudited (asked (annotated api.schema)) api.schema after.schema := by
  obtain ⟨htypes, hframe⟩ := targetsEffect_types hkeyed (targetsEffect_of_onApi_auditAll h)
  have hget : ∀ name, after.schema.get? name = (asked (annotated api.schema)).foldl
      (typeStep api.schema.mutationName name) (api.schema.get? name) := htypes
  have hnodup := nodup_asked hkeyed
  exact {
    frame := hframe
    kept := by
      intro name definition hfound hroot hname hinput
      rw [hget, hfound]
      refine foldl_typeStep_kept hroot hname fun entry hentry hmem => ?_
      obtain ⟨mutation, heq⟩ := mem_strippedInputs_iff.mp hmem
      exact hinput entry hentry mutation heq
    annotated := by
      intro type settings hmem hroot
      obtain ⟨object, hfound⟩ := get?_of_mem_asked hkeyed hmem
      refine ⟨object, hfound, ?_⟩
      rw [hget, hfound]
      exact foldl_typeStep_completed hnodup hmem hroot object
    input := by
      intro type settings mutation input hmem hroot hfound
      rw [hget, hfound]
      exact foldl_typeStep_stripped hnodup hmem mutation hroot input
    deletionInput := by
      intro type settings hmem hsoft hroot hfound
      have hadded := foldl_typeStep_added hnodup hmem hsoft hroot
      rw [hget, hfound]
      exact hadded
    absent := by
      intro name hfound hroot hname
      rw [hget, hfound]
      exact foldl_typeStep_absent hroot hname
    root := by
      intro object hfound hroot
      rw [hget, hfound]
      exact foldl_typeStep_root_object hroot object
    newRoot := by
      intro hfound hmutations
      rw [hget]
      refine foldl_typeStep_root_other ?_ (fun hmem => ?_) hmutations
      · exact Option.eq_none_iff_forall_ne_some.mpr fun object hobject =>
          hfound object (bind_object?_eq_some_iff.mp hobject)
      · obtain ⟨entry, hentry, hname⟩ := List.mem_map.mp hmem
        obtain ⟨object, hobject⟩ := get?_of_mem_asked hkeyed hentry
        exact hfound object (hname ▸ hobject)
    annotatedRoot := by
      intro settings hmem
      obtain ⟨object, hfound⟩ := get?_of_mem_asked hkeyed hmem
      obtain ⟨before, rest, hsplit, hroot⟩ := foldl_typeStep_root_annotated hnodup hmem object
      exact ⟨object, before, rest, hfound, hsplit, by rw [hget, hfound, hroot]⟩ }

theorem auditAll_schema_journal :
    journal.schema.Keyed ∧ (asked (annotated journal.schema)).names = ["Post", "Mutation"] ∧
    ∃ names after, (auditAll {}).onApi journal = (.ok names, .direct after) ∧
      SchemaAudited (asked (annotated journal.schema)) journal.schema after.schema := by
  obtain ⟨names, after, h⟩ := exists_onApi_auditAll_journal
  exact ⟨keyed_journal, by decide, names, after, h, auditAll_schema keyed_journal h⟩

end AuditFields.Audit
