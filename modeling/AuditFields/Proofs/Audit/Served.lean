import AuditFields.Proofs.Audit.Order

/-!
# Whether soft delete mutations are served

A reader of a schema document offers the fields of one type as mutations: of the type that the definition
of the roots names, if there is a definition, and of the type of the default name otherwise. Fields that
are added to the mutation root always come to the end of one object type, but a definition of the roots
that leaves the mutations out comes to name this type only when the type is made. If it was there before,
it stays unserved (`Unserved`), and so does the soft delete mutation of every audited type.

That a schema is unserved is not changed by any step, as the steps put objects in the place of objects
and nothing but an addition to the mutation root touches the roots.
-/

namespace AuditFields

open Schema

namespace Schema

variable {schema : Schema}

/-- The type whose fields a reader of the document offers as mutations. -/
def servedRoot (schema : Schema) : Option String :=
  match schema.roots with
  | some roots => roots.mutation
  | none => some defaultMutationName

def HasRoot (schema : Schema) : Prop :=
  ∃ root, schema.get? schema.mutationName = some (.object root)

/-- There is an object type for the mutations, and the definition of the roots does not name it. -/
def Unserved (schema : Schema) : Prop :=
  schema.servedRoot = none ∧ schema.HasRoot

theorem servedRoot_cases (schema : Schema) :
    schema.servedRoot = none ∨ schema.servedRoot = some schema.mutationName := by
  unfold servedRoot mutationName
  cases schema.roots with
  | none => exact Or.inr rfl
  | some roots =>
    cases hmutation : roots.mutation with
    | none => exact Or.inl hmutation
    | some name => exact Or.inr (by simp [hmutation])

theorem servedRoot_eq_mutationName_iff (schema : Schema) :
    schema.servedRoot = some schema.mutationName ↔
      ∀ roots ∈ schema.roots, roots.mutation = some schema.mutationName := by
  unfold servedRoot mutationName
  cases schema.roots with
  | none => simp
  | some roots => simp

theorem servedRoot_eq_iff (h : schema.HasRoot) :
    schema.servedRoot = some schema.mutationName ↔ ¬schema.Unserved := by
  constructor
  · rintro hserved ⟨hnone, _⟩
    cases hserved.symm.trans hnone
  · exact fun hnot => schema.servedRoot_cases.resolve_left fun hnone => hnot ⟨hnone, h⟩

/-! ## Changes -/

theorem unserved_put {definition : TypeDefinition}
    (h : (∃ root, definition = .object root) ↔
      ∃ root, schema.get? definition.name = some (.object root)) :
    (schema.put definition).Unserved ↔ schema.Unserved := by
  have hroot : (schema.put definition).HasRoot ↔ schema.HasRoot := by
    show (∃ root, (schema.put definition).get? schema.mutationName = some (.object root)) ↔ _
    rw [get?_put]
    split
    · next hname =>
      rw [HasRoot, ← hname, ← h]
      simp only [Option.some.injEq]
    · rfl
  exact and_congr Iff.rfl hroot

theorem unserved_put_input {input : InputType}
    (h : ∀ root, schema.get? input.name ≠ some (.object root)) :
    (schema.put (.input input)).Unserved ↔ schema.Unserved :=
  unserved_put ⟨fun ⟨_, hroot⟩ => (nomatch hroot), fun ⟨root, hroot⟩ => absurd hroot (h root)⟩

theorem mutationName_addMutations (schema : Schema) (fields : List Field) :
    (schema.addMutations fields).mutationName = schema.mutationName :=
  Api.mutationName_apply { schema } (.mutations fields)

theorem get?_root_addMutations (schema : Schema) (fields : List Field) :
    ∃ root, (schema.addMutations fields).get? schema.mutationName = some (.object root) ∧
      fields <:+ root.fields :=
  ⟨_, (get?_addMutations _ _ _).trans (if_pos rfl), List.suffix_append _ _⟩

theorem hasRoot_addMutations (schema : Schema) (fields : List Field) :
    (schema.addMutations fields).HasRoot := by
  obtain ⟨root, hroot, _⟩ := schema.get?_root_addMutations fields
  exact ⟨root, (mutationName_addMutations schema fields).symm ▸ hroot⟩

theorem unserved_addMutations (schema : Schema) (fields : List Field) :
    (schema.addMutations fields).Unserved ↔ schema.Unserved := by
  have hserved : (schema.addMutations fields).servedRoot = none ↔
      schema.servedRoot = none ∧ schema.HasRoot := by
    unfold HasRoot addMutations
    dsimp only
    split
    · next root hroot =>
      simp only [hroot, Option.some.injEq, TypeDefinition.object.injEq, exists_eq', and_true]
      rfl
    · next hnot =>
      have hnone : ¬∃ root, schema.get? schema.mutationName = some (.object root) :=
        fun ⟨root, hroot⟩ => hnot root hroot
      simp only [hnone, and_false, iff_false]
      unfold servedRoot
      cases schema.roots with
      | none => simp
      | some roots => simp
  rw [Unserved, Unserved, hserved]
  exact and_iff_left (schema.hasRoot_addMutations fields)

end Schema

namespace Audit

variable {config : Config} {settings : Settings} {type : String} {api after : Api}

/-! ## The steps -/

theorem unserved_of_deletionIfAsked (h : deletionIfAsked config settings type api = .ok after) :
    after.schema.Unserved ↔ api.schema.Unserved := by
  rcases deletionIfAsked_cases h with ⟨_, rfl⟩ | ⟨update, request, _, _, _, rfl⟩
  · rfl
  · refine (unserved_addMutations _ [deletionMutation type]).trans ?_
    unfold deletionInputEdits
    split
    · next hnone =>
      refine unserved_put_input fun root hroot => ?_
      cases (Option.isNone_iff_eq_none.mp hnone).symm.trans hroot
    · rfl

theorem unserved_of_inputEffect {mutation : InputMutation} (hkeyed : api.schema.Keyed)
    (h : inputEffect settings type mutation api = .ok after) :
    after.schema.Unserved ↔ api.schema.Unserved := by
  rcases inputEffect_cases h with ⟨_, rfl⟩ | ⟨input, hinput, _, rfl⟩
  · rfl
  · have hname : input.name = inputName type mutation := hkeyed.name_of_get? hinput
    rw [← hname] at hinput
    have hput : ∀ root, api.schema.get? (withoutAuditFields settings input).name ≠ some (.object root) := by
      intro root hroot
      cases hinput.symm.trans hroot
    exact unserved_put_input hput

theorem unserved_of_fieldsEffect (hkeyed : api.schema.Keyed)
    (h : fieldsEffect settings type api = .ok after) :
    after.schema.Unserved ↔ api.schema.Unserved := by
  rcases fieldsEffect_cases h with ⟨_, rfl⟩ | ⟨object, added, hobject, _, ⟨_, rfl⟩ | rfl⟩
  · rfl
  · rfl
  · have hname : object.name = type := hkeyed.name_of_get? hobject
    rw [← hname] at hobject
    exact unserved_put ⟨fun _ => ⟨object, hobject⟩, fun _ => ⟨_, rfl⟩⟩

/-- The step: the work on a type serves no mutations that were not served before. -/
theorem unserved_of_stepsEffect (hkeyed : api.schema.Keyed)
    (h : stepsEffect config settings type api = .ok after) :
    after.schema.Unserved ↔ api.schema.Unserved := by
  obtain ⟨updated, deleted, hidden, bare, hschema, hdeleted, hkeyedDeleted, hhidden, hkeyedHidden,
    hbare, hkeyedBare, hfields, _⟩ := stepsEffect_schema_cases hkeyed h
  rw [unserved_of_fieldsEffect hkeyedBare hfields, unserved_of_inputEffect hkeyedHidden hbare,
    unserved_of_inputEffect hkeyedDeleted hhidden, unserved_of_deletionIfAsked hdeleted, hschema]

/-- The run: nor does the work on all types. -/
theorem unserved_of_targetsEffect {targets : List (ObjectType × Directive)} (hkeyed : api.schema.Keyed)
    (h : targetsEffect config targets api = .ok after) :
    after.schema.Unserved ↔ api.schema.Unserved := by
  have hrun : after.schema.Keyed ∧ (after.schema.Unserved ↔ api.schema.Unserved) := by
    refine Except.foldlM_invariant
      (fun reached => reached.schema.Keyed ∧ (reached.schema.Unserved ↔ api.schema.Unserved))
      (fun before target _ next hbefore hnext => ?_) ⟨hkeyed, Iff.rfl⟩ h
    obtain ⟨settings, _, hsteps⟩ := targetEffect_cases hnext
    exact ⟨keyed_of_stepsEffect hbefore.1 hsteps,
      (unserved_of_stepsEffect hbefore.1 hsteps).trans hbefore.2⟩
  exact hrun.2

/-! ## The mutation root -/

theorem exists_root_of_mem_mutationsOf {entries : Entries Settings} {mutationName : String}
    {found : Option TypeDefinition} (hnodup : entries.names.Nodup)
    (hannotated : ∀ settings, (mutationName, settings) ∈ entries →
      ∃ object, found = some (.object object))
    {mutation : Field} (h : mutation ∈ mutationsOf entries) :
    ∃ root, entries.foldl (typeStep mutationName mutationName) found = some (.object root) ∧
      mutation ∈ root.fields := by
  by_cases hmem : mutationName ∈ entries.names
  · obtain ⟨⟨_, settings⟩, hentry, rfl⟩ := List.mem_map.mp hmem
    obtain ⟨object, rfl⟩ := hannotated settings hentry
    obtain ⟨before, rest, rfl, hfold⟩ := foldl_typeStep_root_annotated hnodup hentry object
    refine ⟨_, hfold, ?_⟩
    simp only [mutationsOf, List.flatMap_append, List.flatMap_cons, List.mem_append] at h
    simp only [ObjectType.addFields, mutationsOf, List.mem_append]
    tauto
  · rcases hfound : found.bind TypeDefinition.object? with _ | object
    · refine ⟨_, foldl_typeStep_root_other hfound hmem (List.ne_nil_of_mem h), h⟩
    · obtain rfl := bind_object?_eq_some_iff.mp hfound
      exact ⟨_, foldl_typeStep_root_object hmem object, List.mem_append_right _ h⟩

theorem exists_deletion_of_auditAll {names : List String} (hkeyed : api.schema.Keyed)
    (h : (auditAll config).onApi api = (.ok names, .direct after))
    (hmem : (type, settings) ∈ asked (annotated api.schema)) (hsoft : settings.softDelete = true) :
    ∃ resolver root,
      after.resource? (Artifact.softDeleteResolver.nameFor type) = some (.resolver resolver) ∧
      resolver.fieldName = (deletionMutation type).name ∧
      resolver.typeName = after.schema.mutationName ∧
      after.type? after.schema.mutationName = some (.object root) ∧
      deletionMutation type ∈ root.fields := by
  obtain ⟨_, htypes, hstack⟩ := auditAll_cases hkeyed h
  have hname : after.schema.mutationName = api.mutationName := hstack.frame.mutationName
  obtain ⟨update, request, _, _, hresolver, _⟩ := (hstack.carriedOut _ hmem).deletion hsoft
  have hannotated : ∀ settings, (api.mutationName, settings) ∈ asked (annotated api.schema) →
      ∃ object, api.type? api.mutationName = some (.object object) := by
    intro settings hentry
    obtain ⟨object, hobject⟩ := get?_of_mem_asked hkeyed hentry
    exact ⟨object, hobject⟩
  have hadded : deletionMutation type ∈ mutationsOf (asked (annotated api.schema)) :=
    forall_mem_mutationsOf_iff.mp (fun _ hmutation => hmutation) _ hmem hsoft
  obtain ⟨root, hroot, hmutation⟩ := exists_root_of_mem_mutationsOf (nodup_asked hkeyed) hannotated hadded
  refine ⟨_, root, hresolver, rfl, hname.symm, ?_, hmutation⟩
  rw [hname, htypes, hroot]

/-- **Soft delete mutations are fields of the mutation root, and they are served unless the definition of
the roots leaves out an object type that was there for them.** Fields that are added to the mutation root
of any schema come to the end of an object type, and a definition of the roots names this type exactly if
the schema was not unserved. So the resolver of every soft delete mutation that auditing adds is for a
field of the mutation root, and a reader of the document offers this field exactly if the schema was not
unserved. -/
theorem auditAll_served_iff {names : List String} (hkeyed : api.schema.Keyed)
    (h : (auditAll config).onApi api = (.ok names, .direct after)) :
    (∀ (schema : Schema) (fields : List Field),
      let extended := schema.addMutations fields
      ∃ root, extended.get? extended.mutationName = some (.object root) ∧ fields <:+ root.fields ∧
        ((∀ roots ∈ extended.roots, roots.mutation = some extended.mutationName) ↔
          ¬schema.Unserved)) ∧
    ∀ type settings, (type, settings) ∈ asked (annotated api.schema) → settings.softDelete = true →
      ∃ resolver root,
        after.resource? (Artifact.softDeleteResolver.nameFor type) = some (.resolver resolver) ∧
        resolver.fieldName = (deletionMutation type).name ∧
        after.type? resolver.typeName = some (.object root) ∧ deletionMutation type ∈ root.fields ∧
        (after.schema.servedRoot = some resolver.typeName ↔ ¬api.schema.Unserved) := by
  refine ⟨fun schema fields => ?_, fun type settings hmem hsoft => ?_⟩
  · intro extended
    obtain ⟨root, hroot, hfields⟩ := schema.get?_root_addMutations fields
    rw [← mutationName_addMutations schema fields] at hroot
    refine ⟨root, hroot, hfields, ?_⟩
    rw [← unserved_addMutations schema fields, ← servedRoot_eq_iff ⟨root, hroot⟩]
    exact extended.servedRoot_eq_mutationName_iff.symm
  · obtain ⟨resolver, root, hresolver, hfield, htype, hroot, hmutation⟩ :=
      exists_deletion_of_auditAll hkeyed h hmem hsoft
    refine ⟨resolver, root, hresolver, hfield, htype.symm ▸ hroot, hmutation, ?_⟩
    rw [htype, ← unserved_of_targetsEffect hkeyed (targetsEffect_of_onApi_auditAll h)]
    exact servedRoot_eq_iff ⟨root, hroot⟩

/-! ## A ledger with roots -/

/-- The ledger with a definition of its roots. -/
def ledgerWith (roots : Roots) : Api :=
  { ledger with schema := { ledger.schema with roots := some roots } }

theorem keyed_ledgerWith (roots : Roots) : (ledgerWith roots).schema.Keyed :=
  ⟨keyed_ledger.nodup, keyed_ledger.own⟩

theorem mem_asked_ledgerWith (roots : Roots) :
    ("Credit", ({} : Settings).rename .deleted "gone") ∈ asked (annotated (ledgerWith roots).schema) := by
  have hasked : asked (annotated (ledgerWith roots).schema) = asked (annotated ledger.schema) := rfl
  rw [hasked]
  decide

theorem auditAll_served_iff_ledger :
    let api := ledgerWith { query := some "Query", mutation := some "Mutation" }
    api.schema.Keyed ∧ ¬api.schema.Unserved ∧
    ∃ names after resolver root, (auditAll {}).onApi api = (.ok names, .direct after) ∧
      after.resource? "SoftDeleteCreditResolver" = some (.resolver resolver) ∧
      resolver.fieldName = "softDeleteCredit" ∧
      after.type? resolver.typeName = some (.object root) ∧ deletionMutation "Credit" ∈ root.fields ∧
      after.schema.servedRoot = some resolver.typeName := by
  intro api
  have hserved : ¬api.schema.Unserved := fun hunserved => nomatch hunserved.1
  have hkeyed : api.schema.Keyed := keyed_ledgerWith _
  obtain ⟨names, after, h⟩ := exists_onApi_auditAll_of_isOk {} api (by decide +kernel)
  obtain ⟨resolver, root, hresolver, hfield, hroot, hmutation, hiff⟩ :=
    (auditAll_served_iff hkeyed h).2 _ _ (mem_asked_ledgerWith _) rfl
  exact ⟨hkeyed, hserved, names, after, resolver, root, h, hresolver, hfield, hroot, hmutation,
    hiff.mpr hserved⟩

/-- Where the definition of the roots names the query root alone, no mutation is served in the end. -/
theorem not_served_ledger :
    let api := ledgerWith { query := some "Query" }
    ∃ names after resolver, (auditAll {}).onApi api = (.ok names, .direct after) ∧
      after.resource? "SoftDeleteCreditResolver" = some (.resolver resolver) ∧
      resolver.fieldName = "softDeleteCredit" ∧ resolver.typeName = after.schema.mutationName ∧
      after.schema.servedRoot = none := by
  intro api
  have hkeyed : api.schema.Keyed := keyed_ledgerWith _
  obtain ⟨names, after, h⟩ := exists_onApi_auditAll_of_isOk {} api (by decide +kernel)
  obtain ⟨resolver, _, hresolver, hfield, htype, _, _⟩ :=
    exists_deletion_of_auditAll hkeyed h (mem_asked_ledgerWith _) rfl
  have hunserved : after.schema.Unserved :=
    (unserved_of_targetsEffect hkeyed (targetsEffect_of_onApi_auditAll h)).mpr ⟨rfl, _, rfl⟩
  exact ⟨names, after, resolver, h, hresolver, hfield, htype, hunserved.1⟩

end Audit

end AuditFields
