import AuditFields.Proofs.Audit.Order
import Mathlib.Data.List.Nodup

/-!
# Fields of different names

Auditing adds fields in three places: the bookkeeping fields that a type lacks, a new input, and the soft
delete mutations in the mutation root. A bookkeeping field is added only if there is none of its name, and
a new input has one field. A mutation is added in any case, so whether definitions whose fields have
different names still have them afterwards depends on the mutation root alone: its names must not include
that of a soft delete mutation by the time that the mutation is added (`Taken`). They include the names
that were there from the start, and the names of the bookkeeping fields of the root once it is audited
itself. The mutations of other types are no obstacle, as they are named after their types.
-/

namespace AuditFields

open Schema

namespace Schema

/-- No two fields of the definition have the same name. -/
def TypeDefinition.DistinctFields : TypeDefinition → Prop
  | .object type => (type.fields.map (·.name)).Nodup
  | .interface type => (type.fields.map (·.name)).Nodup
  | .input type => (type.fields.map (·.name)).Nodup
  | .scalar _ => True
  | .union _ => True
  | .enum _ => True

instance : DecidablePred TypeDefinition.DistinctFields
  | .object type => inferInstanceAs (Decidable (type.fields.map (·.name)).Nodup)
  | .interface type => inferInstanceAs (Decidable (type.fields.map (·.name)).Nodup)
  | .input type => inferInstanceAs (Decidable (type.fields.map (·.name)).Nodup)
  | .scalar _ => inferInstanceAs (Decidable True)
  | .union _ => inferInstanceAs (Decidable True)
  | .enum _ => inferInstanceAs (Decidable True)

/-- No definition has two fields of the same name. -/
def DistinctFields (schema : Schema) : Prop :=
  ∀ entry ∈ schema.types, entry.2.DistinctFields

instance (schema : Schema) : Decidable schema.DistinctFields :=
  inferInstanceAs (Decidable (∀ entry ∈ schema.types, entry.2.DistinctFields))

theorem distinctFields_iff {schema : Schema} (h : schema.Keyed) :
    schema.DistinctFields ↔
      ∀ name, ∀ definition ∈ schema.get? name, definition.DistinctFields := by
  constructor
  · intro hdistinct name definition hfound
    exact hdistinct _ (Entries.mem_of_get? hfound)
  · rintro hdistinct ⟨name, definition⟩ hmem
    exact hdistinct name definition (Entries.get?_of_mem h.nodup hmem)

def ObjectType.fieldNames (object : ObjectType) : List String :=
  object.fields.map (·.name)

theorem ObjectType.fieldNames_addFields (object : ObjectType) (added : List Field) :
    (object.addFields added).fieldNames = object.fieldNames ++ added.map (·.name) :=
  List.map_append

theorem ObjectType.nodup_fieldNames_addFields {object : ObjectType} {added : List Field} :
    (object.addFields added).fieldNames.Nodup ↔
      object.fieldNames.Nodup ∧ (added.map (·.name)).Nodup ∧
        ∀ field ∈ added, field.name ∉ object.fieldNames := by
  rw [fieldNames_addFields, List.nodup_append']
  refine and_congr_right fun _ => and_congr_right fun _ => ?_
  rw [List.disjoint_comm]
  exact List.forall_mem_map

theorem ObjectType.field?_eq_none_iff {object : ObjectType} {name : String} :
    object.field? name = none ↔ name ∉ object.fieldNames := by
  simp [field?, fieldNames]

end Schema

namespace Audit

variable {config : Config} {settings : Settings} {type : String} {api after : Api}
  {entries : Entries Settings}

/-! ## Bookkeeping fields -/

theorem nodup_addFields_lackedFields {object : ObjectType} :
    (object.addFields (lackedFields settings object)).fieldNames.Nodup ↔ object.fieldNames.Nodup := by
  rw [ObjectType.nodup_fieldNames_addFields]
  refine ⟨fun h => h.1, fun h => ⟨h, ?_, fun field hmem => ?_⟩⟩
  · rw [lackedFields, lackedAmong, List.map_map]
    refine (AuditField.nodup_all.filter _).map_on fun field hfield other hother hname => ?_
    have hfirst := (of_decide_eq_true (List.mem_filter.mp hfield).2).2
    have hfirstOther := (of_decide_eq_true (List.mem_filter.mp hother).2).2
    rw [← hfirst, ← hfirstOther]
    exact firstNamed_congr hname
  · obtain ⟨missing, hmissing, rfl⟩ := List.mem_map.mp hmem
    have hlacks := of_decide_eq_true (List.mem_filter.mp hmissing).2
    exact ObjectType.field?_eq_none_iff.mp hlacks.1

theorem mem_fieldNames_addFields_lackedFields {object : ObjectType} {name : String} :
    name ∈ (object.addFields (lackedFields settings object)).fieldNames ↔
      name ∈ object.fieldNames ∨ ∃ field, settings.name field = name := by
  rw [ObjectType.fieldNames_addFields, List.mem_append]
  constructor
  · rintro (hmem | hmem)
    · exact Or.inl hmem
    · obtain ⟨field, hfield, rfl⟩ := List.mem_map.mp hmem
      obtain ⟨missing, _, rfl⟩ := List.mem_map.mp hfield
      exact Or.inr ⟨missing, rfl⟩
  · rintro (hmem | ⟨field, rfl⟩)
    · exact Or.inl hmem
    · refine Classical.or_iff_not_imp_left.mpr fun hnot => ?_
      have hname := name_firstNamed settings field
      have hlacks : Lacks settings object (firstNamed settings field) :=
        ⟨by rw [hname]; exact ObjectType.field?_eq_none_iff.mpr hnot, firstNamed_congr hname⟩
      rw [← hname]
      exact List.mem_map_of_mem (List.mem_map_of_mem
        (List.mem_filter.mpr ⟨AuditField.mem_all _, decide_eq_true hlacks⟩))

/-! ## Mutations -/

theorem nodup_names_mutationsOf (h : entries.names.Nodup) :
    ((mutationsOf entries).map (·.name)).Nodup := by
  rw [mutationsOf_eq_map, List.map_map]
  have htypes : ((entries.filter (·.2.softDelete)).map (·.1)).Nodup :=
    (List.filter_sublist.map _).nodup h
  exact htypes.map fun _ _ heq => Artifact.nameFor_inj heq

/-! ## Types other than the mutation root -/

theorem distinctFields_typeAfter {name : String} {found : Option TypeDefinition}
    (h : ∀ definition ∈ found, definition.DistinctFields) :
    ∀ definition ∈ typeAfter settings type name found, definition.DistinctFields := by
  intro definition hafter
  unfold typeAfter at hafter
  split at hafter
  · split at hafter
    · obtain rfl := Option.some.inj hafter
      exact List.nodup_singleton _
    · cases hafter
  · next object =>
    split at hafter
    · obtain rfl := Option.some.inj hafter
      exact nodup_addFields_lackedFields.mpr (h _ rfl)
    · exact h definition hafter
  · next input =>
    split at hafter
    · obtain rfl := Option.some.inj hafter
      exact (List.filter_sublist.map _).nodup (h _ rfl)
    · exact h definition hafter
  · exact h definition hafter

theorem distinctFields_foldl_typeStep {mutationName name : String}
    (hplace : name ≠ mutationName ∨ mutationsOf entries = []) {found : Option TypeDefinition}
    (h : ∀ definition ∈ found, definition.DistinctFields) :
    ∀ definition ∈ entries.foldl (typeStep mutationName name) found, definition.DistinctFields := by
  induction entries generalizing found with
  | nil => exact h
  | cons entry rest ih =>
    have hsplit : mutationsOf (entry :: rest) = mutationsFor entry.1 entry.2 ++ mutationsOf rest := rfl
    rw [hsplit, List.append_eq_nil_iff] at hplace
    have hnone : ¬(name = mutationName ∧ mutationsFor entry.1 entry.2 ≠ []) := fun hadds =>
      hplace.elim (· hadds.1) fun hempty => hadds.2 hempty.1
    refine ih (hplace.imp_right (·.2)) ?_
    rw [typeStep, withMutations, if_neg hnone]
    exact distinctFields_typeAfter h

/-! ## The mutation root -/

/-- The name of the mutation of a type is taken by the time that the mutation is added: by a field that
the mutation root had from the start, or by one of its bookkeeping fields, if the root is annotated and
comes before the type. -/
def Taken (schema : Schema) (entries : Entries Settings) (entry : String × Settings) : Prop :=
  (∃ root, schema.get? schema.mutationName = some (.object root) ∧
    (deletionMutation entry.1).name ∈ root.fieldNames) ∨
  ∃ settings field, [(schema.mutationName, settings), entry].Sublist entries ∧
    settings.name field = (deletionMutation entry.1).name

theorem pair_sublist_iff {before rest : Entries Settings} {entry : String × Settings}
    (h : Entries.names (before ++ (type, settings) :: rest) |>.Nodup) (others : Settings) :
    [(type, others), entry].Sublist (before ++ (type, settings) :: rest) ↔
      others = settings ∧ entry ∈ rest := by
  induction before with
  | nil =>
    have hfresh : type ∉ Entries.names rest := (List.nodup_cons.mp h).1
    constructor
    · intro hsub
      cases hsub with
      | cons _ hsub =>
        exact absurd (List.mem_map_of_mem (hsub.subset List.mem_cons_self)) hfresh
      | cons_cons _ hsub => exact ⟨rfl, List.singleton_sublist.mp hsub⟩
    · rintro ⟨rfl, hmem⟩
      exact (List.singleton_sublist.mpr hmem).cons_cons _
  | cons first before ih =>
    obtain ⟨hfresh, hrest⟩ := List.nodup_cons.mp h
    rw [← ih hrest]
    refine ⟨fun hsub => ?_, fun hsub => hsub.cons _⟩
    cases hsub with
    | cons _ hsub => exact hsub
    | cons_cons _ hsub =>
      refine absurd (List.mem_map.mpr ⟨(type, settings), ?_, rfl⟩) hfresh
      exact List.mem_append_right _ List.mem_cons_self

/-- A root that is annotated, if the mutations before it and its own find no name taken. -/
theorem nodup_annotatedRoot_iff {object : ObjectType} {before rest : Entries Settings}
    {mutationName : String} (hobject : object.fieldNames.Nodup)
    (hnodup : (Entries.names (before ++ (mutationName, settings) :: rest)).Nodup) :
    let started := object.addFields (mutationsOf before ++ mutationsFor mutationName settings)
    let completed := started.addFields (lackedFields settings started)
    (completed.addFields (mutationsOf rest)).fieldNames.Nodup ↔
      (∀ mutation ∈ mutationsOf (before ++ (mutationName, settings) :: rest),
        mutation.name ∉ object.fieldNames) ∧
      ∀ mutation ∈ mutationsOf rest, ∀ field, settings.name field ≠ mutation.name := by
  intro started completed
  have hall : mutationsOf (before ++ (mutationName, settings) :: rest) =
      (mutationsOf before ++ mutationsFor mutationName settings) ++ mutationsOf rest := by
    simp only [mutationsOf, List.flatMap_append, List.flatMap_cons, List.append_assoc]
  have hnames := nodup_names_mutationsOf hnodup
  rw [hall, List.map_append, List.nodup_append'] at hnames
  obtain ⟨hearly, hlate, hdisjoint⟩ := hnames
  have hstarted : started.fieldNames.Nodup ↔
      ∀ mutation ∈ mutationsOf before ++ mutationsFor mutationName settings,
        mutation.name ∉ object.fieldNames := by
    rw [ObjectType.nodup_fieldNames_addFields]
    exact ⟨fun h => h.2.2, fun h => ⟨hobject, hearly, h⟩⟩
  -- The name of a later mutation is none of the earlier ones, which are named after other types.
  have hlater : ∀ mutation ∈ mutationsOf rest, mutation.name ∉ completed.fieldNames ↔
      mutation.name ∉ object.fieldNames ∧ ∀ field, settings.name field ≠ mutation.name := by
    intro mutation hmem
    have hfresh := List.disjoint_right.mp hdisjoint (List.mem_map_of_mem hmem)
    rw [mem_fieldNames_addFields_lackedFields, ObjectType.fieldNames_addFields, List.mem_append]
    simp only [hfresh, or_false, not_or, not_exists]
  have hsplit : (∀ mutation ∈ mutationsOf (before ++ (mutationName, settings) :: rest),
        mutation.name ∉ object.fieldNames) ↔
      (∀ mutation ∈ mutationsOf before ++ mutationsFor mutationName settings,
        mutation.name ∉ object.fieldNames) ∧
      ∀ mutation ∈ mutationsOf rest, mutation.name ∉ object.fieldNames := by
    rw [hall, List.forall_mem_append]
  rw [ObjectType.nodup_fieldNames_addFields, nodup_addFields_lackedFields, hstarted, hsplit]
  constructor
  · rintro ⟨hbefore, _, hrest⟩
    exact ⟨⟨hbefore, fun mutation hmem => ((hlater mutation hmem).mp (hrest mutation hmem)).1⟩,
      fun mutation hmem => ((hlater mutation hmem).mp (hrest mutation hmem)).2⟩
  · rintro ⟨⟨hbefore, hrest⟩, hsettings⟩
    exact ⟨hbefore, hlate, fun mutation hmem =>
      (hlater mutation hmem).mpr ⟨hrest mutation hmem, hsettings mutation hmem⟩⟩

theorem taken_annotated_iff {schema : Schema} {object : ObjectType} {before rest : Entries Settings}
    (hobject : schema.get? schema.mutationName = some (.object object))
    (hnodup : (Entries.names (before ++ (schema.mutationName, settings) :: rest)).Nodup)
    {entry : String × Settings} :
    Taken schema (before ++ (schema.mutationName, settings) :: rest) entry ↔
      (deletionMutation entry.1).name ∈ object.fieldNames ∨
        entry ∈ rest ∧ ∃ field, settings.name field = (deletionMutation entry.1).name := by
  refine or_congr ?_ ?_
  · simp only [hobject, Option.some.injEq, TypeDefinition.object.injEq, exists_eq_left']
  · simp only [pair_sublist_iff hnodup]
    constructor
    · rintro ⟨_, field, ⟨rfl, hmem⟩, hname⟩
      exact ⟨hmem, field, hname⟩
    · rintro ⟨hmem, field, hname⟩
      exact ⟨settings, field, ⟨rfl, hmem⟩, hname⟩

theorem taken_object_iff {schema : Schema} {object : ObjectType}
    (hobject : schema.get? schema.mutationName = some (.object object))
    (hroot : schema.mutationName ∉ entries.names) {entry : String × Settings} :
    Taken schema entries entry ↔ (deletionMutation entry.1).name ∈ object.fieldNames := by
  have hnot : ∀ settings, ¬[(schema.mutationName, settings), entry].Sublist entries :=
    fun _ hsub => hroot (List.mem_map_of_mem (hsub.subset List.mem_cons_self))
  simp [Taken, hobject, hnot]

theorem not_taken_of_other {schema : Schema}
    (hother : ∀ object, schema.get? schema.mutationName ≠ some (.object object))
    (hroot : schema.mutationName ∉ entries.names) {entry : String × Settings} :
    ¬Taken schema entries entry := by
  rintro (⟨object, hobject, _⟩ | ⟨_, _, hsub, _⟩)
  · exact hother object hobject
  · exact hroot (List.mem_map_of_mem (hsub.subset List.mem_cons_self))

/-- In the end the mutation root has fields of different names exactly if no mutation finds its name
taken. -/
theorem distinctFields_root_iff {schema : Schema} (hnodup : entries.names.Nodup)
    (hannotated : ∀ settings, (schema.mutationName, settings) ∈ entries →
      ∃ object, schema.get? schema.mutationName = some (.object object))
    (h : ∀ definition ∈ schema.get? schema.mutationName, definition.DistinctFields) :
    (∀ definition ∈ entries.foldl (typeStep schema.mutationName schema.mutationName)
        (schema.get? schema.mutationName), definition.DistinctFields) ↔
      ∀ entry ∈ entries, entry.2.softDelete = true → ¬Taken schema entries entry := by
  by_cases hmem : schema.mutationName ∈ entries.names
  · -- The root is annotated: mutations that come later meet its bookkeeping fields.
    obtain ⟨⟨_, settings⟩, hentry, rfl⟩ := List.mem_map.mp hmem
    obtain ⟨object, hobject⟩ := hannotated settings hentry
    obtain ⟨before, rest, rfl, hfold⟩ := foldl_typeStep_root_annotated hnodup hentry object
    rw [hobject, hfold]
    simp only [Option.mem_def, Option.some.injEq, forall_eq', taken_annotated_iff hobject hnodup]
    refine (nodup_annotatedRoot_iff (h _ hobject) hnodup).trans ?_
    rw [forall_mem_mutationsOf_iff, forall_mem_mutationsOf_iff]
    constructor
    · rintro ⟨hobject, hrest⟩ entry hentry hsoft (hname | ⟨hlater, field, hname⟩)
      · exact hobject entry hentry hsoft hname
      · exact hrest entry hlater hsoft field hname
    · intro hfree
      refine ⟨fun entry hentry hsoft hname => hfree entry hentry hsoft (Or.inl hname),
        fun entry hlater hsoft field hname => ?_⟩
      exact hfree entry (List.mem_append_right _ (List.mem_cons_of_mem _ hlater)) hsoft
        (Or.inr ⟨hlater, field, hname⟩)
  · rcases hfound : (schema.get? schema.mutationName).bind TypeDefinition.object? with _ | object
    · have hother : ∀ object, schema.get? schema.mutationName ≠ some (.object object) :=
        fun object hobject => nomatch hfound.symm.trans (bind_object?_eq_some_iff.mpr hobject)
      refine iff_of_true ?_ fun _ _ _ => not_taken_of_other hother hmem
      by_cases hnone : mutationsOf entries = []
      · exact distinctFields_foldl_typeStep (Or.inr hnone) h
      · rw [foldl_typeStep_root_other hfound hmem hnone]
        rintro _ ⟨⟩
        exact nodup_names_mutationsOf hnodup
    · have hobject := bind_object?_eq_some_iff.mp hfound
      rw [hobject, foldl_typeStep_root_object hmem]
      simp only [Option.mem_def, Option.some.injEq, forall_eq', taken_object_iff hobject hmem]
      refine ObjectType.nodup_fieldNames_addFields.trans ?_
      rw [← forall_mem_mutationsOf_iff (p := fun mutation => mutation.name ∉ object.fieldNames)]
      exact ⟨fun hadded => hadded.2.2,
        fun hfree => ⟨h _ hobject, nodup_names_mutationsOf hnodup, hfree⟩⟩

/-! ## The schema -/

/-- **Auditing leaves definitions with fields of different names exactly if no soft delete mutation finds
its name taken.** Only the mutation root is given fields without a look at those that it has. -/
theorem auditAll_distinctFields_iff {names : List String} (hkeyed : api.schema.Keyed)
    (hdistinct : api.schema.DistinctFields)
    (h : (auditAll config).onApi api = (.ok names, .direct after)) :
    after.schema.DistinctFields ↔
      ∀ entry ∈ asked (annotated api.schema), entry.2.softDelete = true →
        ¬Taken api.schema (asked (annotated api.schema)) entry := by
  obtain ⟨_, htypes, _⟩ := auditAll_cases hkeyed h
  have hget : ∀ name, after.schema.get? name = (asked (annotated api.schema)).foldl
      (typeStep api.schema.mutationName name) (api.schema.get? name) := htypes
  obtain ⟨hdevelops, _⟩ := targetsEffect_upholds hkeyed
    (fun _ hmem => ⟨_, get?_of_mem_annotated hkeyed hmem⟩) (nodup_annotated hkeyed)
    (targetsEffect_of_onApi_auditAll h)
  have hbefore := (distinctFields_iff hkeyed).mp hdistinct
  have hannotated : ∀ settings,
      (api.schema.mutationName, settings) ∈ asked (annotated api.schema) →
        ∃ object, api.schema.get? api.schema.mutationName = some (.object object) := by
    intro settings hmem
    obtain ⟨object, hobject⟩ := get?_of_mem_asked hkeyed hmem
    exact ⟨object, hobject⟩
  have hroot := distinctFields_root_iff (nodup_asked hkeyed) hannotated (hbefore _)
  rw [distinctFields_iff (hdevelops.keyed hkeyed)]
  simp only [hget]
  refine ⟨fun hall => hroot.mp (hall _), fun hfree name => ?_⟩
  by_cases hname : name = api.schema.mutationName
  · exact hname ▸ hroot.mpr hfree
  · exact distinctFields_foldl_typeStep (Or.inl hname) (hbefore name)

theorem auditAll_distinctFields_iff_ledger :
    ledger.schema.Keyed ∧ ledger.schema.DistinctFields ∧
    ∃ names after, (auditAll {}).onApi ledger = (.ok names, .direct after) ∧
      after.schema.DistinctFields := by
  have hdistinct : ledger.schema.DistinctFields := by decide
  obtain ⟨names, after, h⟩ := exists_onApi_auditAll_of_isOk {} ledger (by decide +kernel)
  have hroot : ledger.schema.mutationName ∉ (asked (annotated ledger.schema)).names := by decide
  refine ⟨keyed_ledger, hdistinct, names, after, h, ?_⟩
  refine (auditAll_distinctFields_iff keyed_ledger hdistinct h).mpr fun entry hmem _ => ?_
  have hfree : ∀ entry ∈ asked (annotated ledger.schema),
      (deletionMutation entry.1).name ∉ ["close"] := by decide
  rw [taken_object_iff rfl hroot]
  exact hfree entry hmem

/-- The ledger whose mutation root already has the soft delete mutation of one of its types. -/
def ledgerWithDeletion : Api :=
  { ledger with schema := ledger.schema.addMutations [deletionMutation "Debit"] }

theorem not_distinctFields_ledgerWithDeletion :
    ledgerWithDeletion.schema.Keyed ∧ ledgerWithDeletion.schema.DistinctFields ∧
    ∃ names after, (auditAll {}).onApi ledgerWithDeletion = (.ok names, .direct after) ∧
      ¬after.schema.DistinctFields := by
  obtain ⟨names, after, h⟩ := exists_onApi_auditAll_of_isOk {} ledgerWithDeletion (by decide +kernel)
  have hkeyed : ledgerWithDeletion.schema.Keyed := ⟨by decide, by decide⟩
  have hroot : after.type? "Mutation" = some (.object (.plain "Mutation"
      (.plain "close" [] (.named Naming.booleanType) ::
        ["Debit", "Debit", "Credit"].map deletionMutation))) :=
    (targetsEffect_types hkeyed (targetsEffect_of_onApi_auditAll h)).1 "Mutation"
  exact ⟨hkeyed, by decide, names, after, h, fun hdistinct =>
    absurd (hdistinct _ (Entries.mem_of_get? hroot)) (by decide)⟩

end Audit

end AuditFields
