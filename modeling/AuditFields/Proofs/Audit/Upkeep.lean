import AuditFields.Proofs.Audit.Cases
import AuditFields.Proofs.Audit.Fields
import AuditFields.Proofs.Audit.Sequence
import AuditFields.Proofs.Naming
import AuditFields.Proofs.Schema.Keyed

/-!
# What auditing establishes

A type that is audited has every bookkeeping field, and no client can set one through an input of the
type (`Upheld`). Its own steps establish this, and the steps of other types keep it, for a reason that
does not depend on the names that the settings choose: whatever is done for a type only adds fields to
the end of object types, and writes no input but the three of that type (`Develops`). The inputs of
different types have different names, so the run over all types is an induction in which the first
type is only developed further.
-/

namespace AuditFields.Audit

open Schema

/-! ## Development -/

/-- From one API to the other, object types have only gained fields at their ends, and the inputs are
those that were there before, except under the written names. -/
structure Develops (written : List String) (api after : Api) : Prop where
  object {name : String} {object : ObjectType} (h : api.type? name = some (.object object)) :
    ∃ added, after.type? name = some (.object (object.addFields added))
  input {name : String} {input : InputType} (h : after.type? name = some (.input input)) :
    name ∈ written ∨ api.type? name = some (.input input)
  keyed (h : api.schema.Keyed) : after.schema.Keyed

namespace Develops

variable {api between after : Api} {first second : List String}

theorem of_schema_eq (h : after.schema = api.schema) : Develops first api after where
  object hfound := ⟨[], by rw [Api.type?, h, ← Api.type?, hfound, ObjectType.addFields_nil]⟩
  input hfound := Or.inr (by rw [← hfound, Api.type?, Api.type?, h])
  keyed hkeyed := h ▸ hkeyed

theorem refl (api : Api) : Develops first api api :=
  of_schema_eq rfl

theorem trans (h : Develops first api between) (hnext : Develops second between after) :
    Develops (first ++ second) api after where
  object hfound := by
    obtain ⟨added, hbetween⟩ := h.object hfound
    obtain ⟨more, hafter⟩ := hnext.object hbetween
    exact ⟨added ++ more, by rw [hafter, ObjectType.addFields_addFields]⟩
  input hfound := by
    rcases hnext.input hfound with hwritten | hbetween
    · exact Or.inl (List.mem_append_right first hwritten)
    · exact (h.input hbetween).imp_left (List.mem_append_left second)
  keyed hkeyed := hnext.keyed (h.keyed hkeyed)

theorem addFields {object : ObjectType} (h : api.type? object.name = some (.object object))
    (added : List Field) : Develops [] api (api.apply (.type (.object (object.addFields added)))) where
  object {name} found hfound := by
    rw [Api.type?_apply]
    by_cases hname : object.name = name
    · subst hname
      obtain rfl := TypeDefinition.object.inj (Option.some.inj (h.symm.trans hfound))
      exact ⟨added, if_pos rfl⟩
    · exact ⟨[], by rw [ObjectType.addFields_nil, ← hfound]; exact if_neg hname⟩
  input {name} found hfound := by
    rw [Api.type?_apply] at hfound
    by_cases hname : object.name = name
    · cases (if_pos hname).symm.trans hfound
    · exact Or.inr ((if_neg hname).symm.trans hfound)
  keyed hkeyed := hkeyed.apply _

theorem putInput {input : InputType} (h : ∀ object, api.type? input.name ≠ some (.object object)) :
    Develops [input.name] api (api.apply (.input input)) where
  object {name} found hfound := by
    have hname : input.name ≠ name := by
      rintro rfl
      exact h found hfound
    refine ⟨[], ?_⟩
    rw [Api.type?_apply, ObjectType.addFields_nil, ← hfound]
    exact if_neg hname
  input {name} found hfound := by
    rw [Api.type?_apply] at hfound
    by_cases hname : input.name = name
    · exact Or.inl (List.mem_singleton.mpr hname.symm)
    · exact Or.inr ((if_neg hname).symm.trans hfound)
  keyed hkeyed := hkeyed.apply _

/-- Fields at the end of the mutation root, or a new root: no input is written, but one may go. -/
theorem addMutations (api : Api) (fields : List Field) :
    Develops [] api (api.apply (.mutations fields)) where
  object {name} found hfound := by
    rw [Api.type?_apply]
    by_cases hname : api.mutationName = name
    · subst hname
      refine ⟨fields, (if_pos rfl).trans ?_⟩
      rw [hfound]
      rfl
    · exact ⟨[], by rw [ObjectType.addFields_nil, ← hfound]; exact if_neg hname⟩
  input {name} found hfound := by
    rw [Api.type?_apply] at hfound
    by_cases hname : api.mutationName = name
    · cases (if_pos hname).symm.trans hfound
    · exact Or.inr ((if_neg hname).symm.trans hfound)
  keyed hkeyed := hkeyed.apply _

end Develops

/-! ## The steps for a type -/

variable {config : Config} {settings : Settings} {type : String} {api after : Api}

theorem develops_requestEffect {id : String} {snippet : RequestTemplate}
    (h : requestEffect id snippet api = .ok after) : Develops [] api after := by
  rcases requestEffect_cases h with ⟨_, rfl⟩ | ⟨resolver, request, _, _, rfl⟩
  · exact .refl _
  · exact .of_schema_eq rfl

theorem develops_deletionInputEdits (type : String) (api : Api) :
    Develops [Artifact.softDeleteInput.nameFor type] api
      (api.applyAll (deletionInputEdits type api)) := by
  unfold deletionInputEdits
  split
  · next hnone =>
    have habsent : api.type? (deletionInput type).name = none := Option.isNone_iff_eq_none.mp hnone
    have hput : ∀ object, api.type? (deletionInput type).name ≠ some (.object object) := by
      intro object hobject
      cases habsent.symm.trans hobject
    exact Develops.putInput hput
  · exact .refl api

theorem develops_deletionIfAsked (h : deletionIfAsked config settings type api = .ok after) :
    Develops [Artifact.softDeleteInput.nameFor type] api after := by
  rcases deletionIfAsked_cases h with ⟨_, rfl⟩ | ⟨update, request, _, _, _, rfl⟩
  · exact .refl _
  · -- After the input and the mutation, only the stack and the mapping change.
    have hrest : Develops []
        ((api.applyAll (deletionInputEdits type api)).apply (.mutations [deletionMutation type]))
        ((api.applyAll (deletionInputEdits type api)).applyAll
          (deletionEdits config type (templateOnCreate config settings) api.mutationName
            (update, request))) :=
      .of_schema_eq rfl
    exact (develops_deletionInputEdits type api).trans ((Develops.addMutations _ _).trans hrest)

theorem develops_inputEffect {mutation : InputMutation} (hkeyed : api.schema.Keyed)
    (h : inputEffect settings type mutation api = .ok after) :
    Develops [inputName type mutation] api after := by
  rcases inputEffect_cases h with ⟨_, rfl⟩ | ⟨input, hinput, _, rfl⟩
  · exact .refl _
  · have hname : input.name = inputName type mutation := hkeyed.name_of_get? hinput
    rw [← hname] at hinput ⊢
    have hput : ∀ object, api.type? (withoutAuditFields settings input).name ≠ some (.object object) := by
      intro object hobject
      cases hinput.symm.trans hobject
    exact Develops.putInput hput

theorem develops_fieldsEffect (hkeyed : api.schema.Keyed)
    (h : fieldsEffect settings type api = .ok after) : Develops [] api after := by
  rcases fieldsEffect_cases h with ⟨_, rfl⟩ | ⟨object, added, hobject, _, ⟨_, rfl⟩ | rfl⟩
  · exact .refl _
  · exact .refl _
  · have hname : object.name = type := hkeyed.name_of_get? hobject
    exact .addFields (hname ▸ hobject) added

/-- The inputs that the steps for a type may write. -/
def inputs : List Artifact := [.softDeleteInput, .createInput, .updateInput]

/-- The names of the inputs for a type. -/
def inputsOf (type : String) : List String := inputs.map (·.nameFor type)

theorem apart_inputs : Artifact.Apart inputs := by decide

theorem inputName_mem_inputsOf (type : String) (mutation : InputMutation) :
    inputName type mutation ∈ inputsOf type := by
  cases mutation <;> simp [inputName, inputsOf, inputs]

theorem inputName_create_ne_update (type : String) :
    inputName type .create ≠ inputName type .update := by
  intro heq
  cases ((apart_inputs.nameFor_eq_iff (by decide) (by decide)).mp heq).1

/-! ## What is upheld -/

/-- The input of the name, if it is one, has fields, and none of them is a bookkeeping field. -/
def Hidden (settings : Settings) (name : String) (api : Api) : Prop :=
  ∀ input, api.type? name = some (.input input) →
    input.fields ≠ [] ∧ ∀ declared ∈ input.fields, ∀ field, declared.name ≠ settings.name field

/-- An object type has every bookkeeping field of its settings, and its inputs have none. -/
structure Upheld (settings : Settings) (type : String) (api : Api) : Prop where
  complete : ∃ object, api.type? type = some (.object object) ∧ Complete settings object
  hidden (mutation : InputMutation) : Hidden settings (inputName type mutation) api

theorem isAuditName_eq_false_iff {name : String} :
    settings.isAuditName name = false ↔ ∀ field, name ≠ settings.name field := by
  rw [← Bool.not_eq_true, Settings.isAuditName, List.contains_iff_mem, Settings.names, List.mem_map]
  constructor
  · exact fun h field heq => h ⟨field, AuditField.mem_all field, heq.symm⟩
  · rintro h ⟨field, _, heq⟩
    exact h field heq.symm

theorem mem_withoutAuditFields_iff {input : InputType} {declared : InputField} :
    declared ∈ (withoutAuditFields settings input).fields ↔
      declared ∈ input.fields ∧ ∀ field, declared.name ≠ settings.name field := by
  rw [withoutAuditFields, List.mem_filter, Bool.not_eq_true', isAuditName_eq_false_iff]

theorem Hidden.of_develops {name : String} {written : List String} (h : Hidden settings name api)
    (hdevelops : Develops written api after) (hname : name ∉ written) : Hidden settings name after :=
  fun input hinput => h input ((hdevelops.input hinput).resolve_left hname)

theorem Upheld.of_develops {written : List String} (h : Upheld settings type api)
    (hdevelops : Develops written api after) (hnames : ∀ mutation, inputName type mutation ∉ written) :
    Upheld settings type after where
  complete := by
    obtain ⟨object, hobject, hcomplete⟩ := h.complete
    obtain ⟨added, hafter⟩ := hdevelops.object hobject
    exact ⟨object.addFields added, hafter, hcomplete.addFields added⟩
  hidden mutation := (h.hidden mutation).of_develops hdevelops (hnames mutation)

theorem hidden_of_inputEffect {mutation : InputMutation} (hkeyed : api.schema.Keyed)
    (h : inputEffect settings type mutation api = .ok after) :
    Hidden settings (inputName type mutation) after := by
  intro input hinput
  rcases inputEffect_cases h with ⟨hnone, rfl⟩ | ⟨before, hbefore, hfields, rfl⟩
  · exact absurd hinput (hnone input)
  · have hname : before.name = inputName type mutation := hkeyed.name_of_get? hbefore
    rw [Api.type?_apply] at hinput
    obtain rfl := TypeDefinition.input.inj (Option.some.inj ((if_pos hname).symm.trans hinput))
    exact ⟨hfields, fun declared hmem => (mem_withoutAuditFields_iff.mp hmem).2⟩

theorem complete_of_fieldsEffect (hkeyed : api.schema.Keyed) {object : ObjectType}
    (hobject : api.type? type = some (.object object))
    (h : fieldsEffect settings type api = .ok after) :
    ∃ object, after.type? type = some (.object object) ∧ Complete settings object := by
  rcases fieldsEffect_cases h with ⟨hnone, _⟩ | ⟨found, added, hfound, hmissing, hafter⟩
  · exact absurd hobject (hnone object)
  · refine ⟨found.addFields added, ?_, complete_addFields hmissing⟩
    rcases hafter with ⟨rfl, rfl⟩ | rfl
    · rw [hfound, ObjectType.addFields_nil]
    · have hname : found.name = type := hkeyed.name_of_get? hfound
      rw [Api.type?_apply]
      exact if_pos hname

/-! ## The steps together -/

/-- The step: what is done for an object type develops the API and establishes what is upheld. -/
theorem stepsEffect_upholds (hkeyed : api.schema.Keyed) {object : ObjectType}
    (hobject : api.type? type = some (.object object))
    (h : stepsEffect config settings type api = .ok after) :
    Develops (inputsOf type) api after ∧ Upheld settings type after := by
  obtain ⟨created, updated, deleted, hidden, stripped, hcreated, hupdated, hdeleted, hhidden,
    hstripped, hfields⟩ := stepsEffect_cases h
  have hdeletion : Develops [Artifact.softDeleteInput.nameFor type] api deleted :=
    (develops_requestEffect hcreated).trans
      ((develops_requestEffect hupdated).trans (develops_deletionIfAsked hdeleted))
  have hkeyedDeleted := hdeletion.keyed hkeyed
  have hcreate := develops_inputEffect hkeyedDeleted hhidden
  have hkeyedHidden := hcreate.keyed hkeyedDeleted
  have hupdate := develops_inputEffect hkeyedHidden hstripped
  have hkeyedStripped := hupdate.keyed hkeyedHidden
  have hrest := develops_fieldsEffect hkeyedStripped hfields
  obtain ⟨added, hstill⟩ := (hdeletion.trans (hcreate.trans hupdate)).object hobject
  refine ⟨hdeletion.trans (hcreate.trans (hupdate.trans hrest)),
    complete_of_fieldsEffect hkeyedStripped hstill hfields, fun mutation => ?_⟩
  cases mutation with
  | create =>
    refine (hidden_of_inputEffect hkeyedDeleted hhidden).of_develops (hupdate.trans hrest) ?_
    exact fun hmem => inputName_create_ne_update type (List.mem_singleton.mp hmem)
  | update =>
    exact (hidden_of_inputEffect hkeyedHidden hstripped).of_develops hrest List.not_mem_nil

/-- The run: what is done for object types of different names upholds what it establishes for each. -/
theorem targetsEffect_upholds {targets : List (ObjectType × Directive)} (hkeyed : api.schema.Keyed)
    (hobjects : ∀ target ∈ targets, ∃ object, api.type? target.1.name = some (.object object))
    (hnodup : (targets.map (·.1.name)).Nodup) (h : targetsEffect config targets api = .ok after) :
    Develops (targets.flatMap (inputsOf ·.1.name)) api after ∧
      ∀ target ∈ targets, ∃ settings, Settings.read target.2 = .ok settings ∧
        Upheld settings target.1.name after := by
  induction targets generalizing api with
  | nil =>
    obtain rfl := Except.ok.inj h
    exact ⟨.refl api, fun _ hmem => nomatch hmem⟩
  | cons first rest ih =>
    obtain ⟨next, hfirst, hrest⟩ := Except.foldlM_cons_eq_ok_iff.mp h
    obtain ⟨settings, hread, hsteps⟩ := targetEffect_cases hfirst
    obtain ⟨object, hobject⟩ := hobjects first List.mem_cons_self
    obtain ⟨hfresh, hnodupRest⟩ := List.nodup_cons.mp hnodup
    obtain ⟨hdevelops, hupheld⟩ := stepsEffect_upholds hkeyed hobject hsteps
    have hobjectsNext : ∀ target ∈ rest, ∃ object, next.type? target.1.name = some (.object object) := by
      intro target hmem
      obtain ⟨object, hobject⟩ := hobjects target (List.mem_cons_of_mem _ hmem)
      obtain ⟨added, hnext⟩ := hdevelops.object hobject
      exact ⟨_, hnext⟩
    obtain ⟨hlater, hall⟩ := ih (hdevelops.keyed hkeyed) hobjectsNext hnodupRest hrest
    refine ⟨hdevelops.trans hlater, fun target hmem => ?_⟩
    rcases List.mem_cons.mp hmem with rfl | hmem
    · refine ⟨settings, hread, hupheld.of_develops hlater fun mutation hwritten => ?_⟩
      obtain ⟨other, hother, hinput⟩ := List.mem_flatMap.mp hwritten
      have hne : target.1.name ≠ other.1.name := fun heq =>
        hfresh (List.mem_map.mpr ⟨other, hother, heq.symm⟩)
      exact apart_inputs.not_mem_map_nameFor hne (inputName_mem_inputsOf _ mutation) hinput
    · exact hall target hmem

/-- **Auditing an API upholds what the annotations promise, for every annotated type.** The schema may
be any that a document can give (`Schema.keyed_ofText`), with any changes. In the API that is left,
each annotated type is an object type whose bookkeeping fields are all there with fitting types, and
each of its create and update inputs that exists has fields, none of which is a bookkeeping field. -/
theorem auditAll_upholds {names : List String} (hkeyed : api.schema.Keyed)
    (h : (auditAll config).onApi api = (.ok names, .direct after)) :
    ∀ target ∈ annotated api.schema, ∃ settings, Settings.read target.2 = .ok settings ∧
      Upheld settings target.1.name after :=
  (targetsEffect_upholds hkeyed (fun _ hmem => ⟨_, get?_of_mem_annotated hkeyed hmem⟩)
    (nodup_annotated hkeyed) (targetsEffect_of_onApi_auditAll h)).2

/-! ## A journal -/

/-- An annotated type with a field for the flag. -/
def entryType (name flag : String) (arguments : List (String × Value)) : ObjectType where
  description := none
  name := name
  interfaces := []
  directives := [⟨Naming.modelDirective, []⟩, ⟨Naming.authDirective, []⟩,
    ⟨Naming.auditDirective, arguments⟩]
  fields := [.plain flag [] (.nonNull (.named Naming.booleanType))]

/-- A resolver with a request template. -/
def entryResolver (fieldName : String) : Resource :=
  .resolver ⟨.null, none, Schema.defaultMutationName, fieldName, some "request", some "response", [],
    none, []⟩

/-- Two annotated types. The second is the mutation root, to which the first adds its mutation, and
all of its actors share a name. -/
def journal : Api where
  schema := {
    types := [
      ("Post", .object (entryType "Post" "deleted" [])),
      ("CreatePostInput", .input (.plain "CreatePostInput"
        [.plain "text" (.named Naming.idType), .plain "createdAt" (.named Naming.floatType)])),
      ("Mutation", .object (entryType "Mutation" "gone"
        [("deletedField", .string "gone"), ("createdByField", .string "actor"),
         ("updatedByField", .string "actor"), ("deletedByField", .string "actor"),
         ("softDelete", .boolean false), ("identityRequired", .boolean true)]))] }
  stack := {
    resources := [
      ("CreatePostResolver", entryResolver "createPost"),
      ("UpdatePostResolver", entryResolver "updatePost")] }

theorem keyed_journal : journal.schema.Keyed := ⟨by decide, by decide⟩

theorem exists_onApi_auditAll_journal :
    ∃ names after, (auditAll {}).onApi journal = (.ok names, .direct after) :=
  exists_onApi_auditAll_of_isOk {} journal (by decide +kernel)

theorem auditAll_upholds_journal :
    journal.schema.Keyed ∧ (annotated journal.schema).map (·.1.name) = ["Post", "Mutation"] ∧
    ∃ names after, (auditAll {}).onApi journal = (.ok names, .direct after) ∧
      ∀ target ∈ annotated journal.schema, ∃ settings, Settings.read target.2 = .ok settings ∧
        Upheld settings target.1.name after := by
  obtain ⟨names, after, h⟩ := exists_onApi_auditAll_journal
  exact ⟨keyed_journal, by decide, names, after, h, auditAll_upholds keyed_journal h⟩

end AuditFields.Audit
