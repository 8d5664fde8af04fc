import AuditFields.Proofs.Audit.Upkeep
import AuditFields.Proofs.Schema.Printable

/-!
# Audited schemas that are read back

What is done for an annotated type keeps its schema printable if the settings of the type name the
bookkeeping fields by names. If they do not, the schema is not read back, as every bookkeeping field is a
field of the type in the end: the schema that is left is read back from its text exactly if all
settings give names.
-/

namespace AuditFields

open Schema

/-! ## Generated names -/

theorem Schema.isName_append {first second : String} (hfirst : IsName first)
    (hsecond : ∀ c ∈ second.toList, Text.isNameChar c = true) : IsName (first ++ second) := by
  unfold IsName at hfirst ⊢
  rw [String.toList_append]
  cases hchars : first.toList with
  | nil =>
    rw [hchars] at hfirst
    cases hfirst
  | cons c cs =>
    rw [hchars, Text.isName, Bool.and_eq_true] at hfirst
    rw [List.cons_append, Text.isName, hfirst.1, List.all_append, hfirst.2, Bool.true_and, Bool.true_and,
      List.all_eq_true]
    exact hsecond

theorem Artifact.isName_nameFor (artifact : Artifact) {type : String} (h : IsName type) :
    IsName (artifact.nameFor type) := by
  have hfront : IsName (artifact.front ++ type) := by
    cases artifact with
    | dataSource => exact (String.empty_append : "" ++ type = type) ▸ h
    | _ => exact isName_append (by decide) (Text.isNameChar_of_isName h)
  have hback : ∀ c ∈ artifact.back.toList, Text.isNameChar c = true :=
    List.all_eq_true.mp (by cases artifact <;> decide)
  exact isName_append hfront hback

/-! ## Added parts -/

theorem AuditField.wellFormed_type (field : AuditField) (identityRequired : Bool) :
    (field.type identityRequired).WellFormed := by
  unfold AuditField.type
  cases field.kind with
  | time => exact (by decide : IsName Naming.floatType)
  | actor =>
    cases identityRequired with
    | true => exact ⟨rfl, (by decide : IsName Naming.idType)⟩
    | false => exact (by decide : IsName Naming.idType)
  | flag => exact ⟨rfl, (by decide : IsName Naming.booleanType)⟩

namespace Audit

variable {config : Config} {settings : Settings} {type : String} {api after : Api}

theorem wellFormed_idArgument : idArgument.WellFormed :=
  InputField.wellFormed_plain (by decide) ⟨rfl, (by decide : IsName Naming.idType)⟩

theorem printable_deletionInput (h : IsName type) :
    Definition.Printable (.type (.input (deletionInput type))) := by
  have hplain : TypeDefinition.Plain (.input (deletionInput type)) :=
    ⟨(fun _ h => nomatch h), fun _ h => absurd h List.not_mem_nil,
      List.forall_mem_singleton.mpr (InputField.plain_plain _ _)⟩
  have hwellFormed : TypeDefinition.WellFormed (.input (deletionInput type)) :=
    ⟨Artifact.isName_nameFor _ h, fun _ h => absurd h List.not_mem_nil,
      List.forall_mem_singleton.mpr wellFormed_idArgument⟩
  exact hplain.printable hwellFormed (List.cons_ne_nil _ _)

theorem wellFormed_deletionMutation (h : IsName type) : (deletionMutation type).WellFormed :=
  Field.wellFormed_plain (Artifact.isName_nameFor _ h)
    (List.forall_mem_singleton.mpr wellFormed_idArgument) h

theorem plain_deletionMutation (type : String) : (deletionMutation type).Plain :=
  Field.plain_plain (List.forall_mem_singleton.mpr (InputField.plain_plain _ _)) _ _

theorem exists_addedField_of_missingFields {object : ObjectType} {added : List Field}
    (h : missingFields settings object type = .ok added) :
    ∀ declared ∈ added, ∃ field, declared = addedField settings field := by
  refine Except.foldlM_invariant
    (fun added => ∀ declared ∈ added, ∃ field, declared = addedField settings field)
    (fun before field _ next hbefore hcheck => ?_) (fun _ hmem => absurd hmem List.not_mem_nil) h
  unfold checkField at hcheck
  dsimp only at hcheck
  split at hcheck
  · split at hcheck
    · exact Except.ok.inj hcheck ▸ hbefore
    · cases hcheck
  · split at hcheck
    · obtain rfl := Except.ok.inj hcheck
      exact List.forall_mem_append.mpr ⟨hbefore, List.forall_mem_singleton.mpr ⟨field, rfl⟩⟩
    · cases hcheck

/-! ## The steps keep schemas printable -/

theorem requestEffect_printable {id : String} {snippet : RequestTemplate} (hprintable : api.schema.Printable)
    (h : requestEffect id snippet api = .ok after) : after.schema.Printable := by
  rcases requestEffect_cases h with ⟨_, rfl⟩ | ⟨resolver, request, _, _, rfl⟩
  · exact hprintable
  · exact hprintable

theorem deletionInputEdits_printable (hprintable : api.schema.Printable) (htype : IsName type) :
    (api.applyAll (deletionInputEdits type api)).schema.Printable := by
  unfold deletionInputEdits
  split
  · exact hprintable.put (printable_deletionInput htype)
  · exact hprintable

theorem deletionIfAsked_printable (hprintable : api.schema.Printable) (htype : IsName type)
    (h : deletionIfAsked config settings type api = .ok after) : after.schema.Printable := by
  rcases deletionIfAsked_cases h with ⟨_, rfl⟩ | ⟨update, request, _, _, _, rfl⟩
  · exact hprintable
  · exact (deletionInputEdits_printable hprintable htype).addMutations (List.cons_ne_nil _ _)
      (List.forall_mem_singleton.mpr (wellFormed_deletionMutation htype))
      (List.forall_mem_singleton.mpr (plain_deletionMutation type))

theorem inputEffect_printable {mutation : InputMutation} (hprintable : api.schema.Printable)
    (h : inputEffect settings type mutation api = .ok after) : after.schema.Printable := by
  rcases inputEffect_cases h with ⟨_, rfl⟩ | ⟨input, hinput, hfields, rfl⟩
  · exact hprintable
  · have hbefore : Definition.Printable (.type (.input input)) := hprintable.definition_of_get? hinput
    exact hprintable.put (hbefore.restrict (fun name => !settings.isAuditName name) hfields)

theorem fieldsEffect_printable (hprintable : api.schema.Printable)
    (hnames : ∀ field, IsName (settings.name field))
    (h : fieldsEffect settings type api = .ok after) : after.schema.Printable := by
  rcases fieldsEffect_cases h with ⟨_, rfl⟩ | ⟨object, added, hobject, hmissing, ⟨_, rfl⟩ | rfl⟩
  · exact hprintable
  · exact hprintable
  · have hbefore : Definition.Printable (.type (.object object)) := hprintable.definition_of_get? hobject
    refine hprintable.put (hbefore.addFields (fun declared hmem => ?_) fun declared hmem => ?_)
    · obtain ⟨field, rfl⟩ := exists_addedField_of_missingFields hmissing declared hmem
      exact Field.wellFormed_plain (hnames field) (fun _ h => absurd h List.not_mem_nil)
        (field.wellFormed_type settings.identityRequired)
    · obtain ⟨field, rfl⟩ := exists_addedField_of_missingFields hmissing declared hmem
      exact Field.plain_plain (fun _ h => absurd h List.not_mem_nil) _ _

/-- The step: what is done for a type keeps a schema printable, if the settings give names. -/
theorem stepsEffect_printable (hprintable : api.schema.Printable) (htype : IsName type)
    (hnames : ∀ field, IsName (settings.name field))
    (h : stepsEffect config settings type api = .ok after) : after.schema.Printable := by
  obtain ⟨created, updated, deleted, hidden, stripped, hcreated, hupdated, hdeleted, hhidden,
    hstripped, hfields⟩ := stepsEffect_cases h
  have hupdatedPrintable := requestEffect_printable (requestEffect_printable hprintable hcreated) hupdated
  have hdeletedPrintable := deletionIfAsked_printable hupdatedPrintable htype hdeleted
  have hstrippedPrintable := inputEffect_printable (inputEffect_printable hdeletedPrintable hhidden) hstripped
  exact fieldsEffect_printable hstrippedPrintable hnames hfields

/-- The run: what is done for types keeps a schema printable, if all settings give names. -/
theorem targetsEffect_printable {targets : List (ObjectType × Directive)} (hprintable : api.schema.Printable)
    (htypes : ∀ target ∈ targets, IsName target.1.name)
    (hnames : ∀ target ∈ targets, ∀ settings, Settings.read target.2 = .ok settings →
      ∀ field, IsName (settings.name field))
    (h : targetsEffect config targets api = .ok after) : after.schema.Printable := by
  refine Except.foldlM_invariant (·.schema.Printable) (fun before target hmem next hbefore hnext => ?_)
    hprintable h
  obtain ⟨settings, hread, hsteps⟩ := targetEffect_cases hnext
  exact stepsEffect_printable hbefore (htypes target hmem) (hnames target hmem settings hread) hsteps

/-! ## Reading back -/

theorem isName_of_complete {object : ObjectType} (hwellFormed : object.WellFormed)
    (h : Complete settings object) (field : AuditField) : IsName (settings.name field) := by
  obtain ⟨declared, hdeclared, _⟩ := h field
  have hname := List.find?_some hdeclared
  rw [← eq_of_beq hname]
  exact (hwellFormed.fields declared (List.mem_of_find?_eq_some hdeclared)).name

theorem isName_of_targetsEffect (hkeyed : api.schema.Keyed)
    (h : targetsEffect config (annotated api.schema) api = .ok after) (hafter : after.schema.Printable) :
    ∀ target ∈ annotated api.schema, ∀ settings, Settings.read target.2 = .ok settings →
      ∀ field, IsName (settings.name field) := by
  intro target hmem settings hsettings field
  obtain ⟨_, hall⟩ := targetsEffect_upholds hkeyed
    (fun _ hmem => ⟨_, get?_of_mem_annotated hkeyed hmem⟩) (nodup_annotated hkeyed) h
  obtain ⟨other, hother, hupheld⟩ := hall target hmem
  obtain rfl := Except.ok.inj (hother.symm.trans hsettings)
  obtain ⟨object, hobject, hcomplete⟩ := hupheld.complete
  exact isName_of_complete (hafter.definition_of_get? hobject).wellFormed hcomplete field

/-- **Auditing an API whose schema is read back leaves one whose schema is read back, exactly if the
settings of all annotated types name the bookkeeping fields by names.** The annotation takes any string
for the name of a field. -/
theorem auditAll_reads_back_iff {names : List String} (hread : ofText api.schema.render = .ok api.schema)
    (h : (auditAll config).onApi api = (.ok names, .direct after)) :
    ofText after.schema.render = .ok after.schema ↔
      ∀ target ∈ annotated api.schema, ∀ settings, Settings.read target.2 = .ok settings →
        ∀ field, IsName (settings.name field) := by
  have hprintable := ofText_render_eq_self_iff.mp hread
  have heffect := targetsEffect_of_onApi_auditAll h
  rw [ofText_render_eq_self_iff]
  constructor
  · exact isName_of_targetsEffect hprintable.keyed heffect
  · intro hnames
    refine targetsEffect_printable hprintable (fun target hmem => ?_) hnames heffect
    have htarget := hprintable.definition_of_get? (get?_of_mem_annotated hprintable.keyed hmem)
    have hwellFormed : target.1.WellFormed := htarget.wellFormed
    exact hwellFormed.name

/-! ## A diary -/

/-- One annotated type, with a text for the name of its first field. -/
def diary (createdAt : String) : Api where
  schema := {
    types := [("Note", .object (entryType "Note" "deleted"
      [("createdAtField", .string createdAt), ("softDelete", .boolean false)]))] }

theorem read_diary (createdAt : String) :
    ∀ target ∈ annotated (diary createdAt).schema, Settings.read target.2 =
      .ok { ({} : Settings).rename .createdAt createdAt with softDelete := false } :=
  List.forall_mem_singleton.mpr rfl

theorem printable_diary {createdAt : String} (h : Quotable createdAt) :
    (diary createdAt).schema.Printable := by
  have hdirectives : ∀ directive ∈ (entryType "Note" "deleted"
      [("createdAtField", .string createdAt), ("softDelete", .boolean false)]).directives,
      directive.WellFormed ∧ directive.Plain := by
    refine List.forall_mem_cons.mpr ⟨?_, List.forall_mem_cons.mpr ⟨?_, List.forall_mem_singleton.mpr ?_⟩⟩
    · exact ⟨⟨by decide, trivial⟩, trivial⟩
    · exact ⟨⟨by decide, trivial⟩, trivial⟩
    · exact ⟨⟨(by decide : IsName Naming.auditDirective), ⟨by decide, trivial⟩, ⟨by decide, trivial⟩,
        trivial⟩, h, trivial, trivial⟩
  have hplain : TypeDefinition.Plain (.object (entryType "Note" "deleted"
      [("createdAtField", .string createdAt), ("softDelete", .boolean false)])) := by
    refine ⟨(fun _ h => nomatch h), fun directive hmem => (hdirectives directive hmem).2, ?_⟩
    exact List.forall_mem_singleton.mpr (Field.plain_plain (fun _ h => absurd h List.not_mem_nil) _ _)
  have hwellFormed : TypeDefinition.WellFormed (.object (entryType "Note" "deleted"
      [("createdAtField", .string createdAt), ("softDelete", .boolean false)])) := by
    refine ⟨(by decide : IsName "Note"), fun _ h => absurd h List.not_mem_nil,
      fun directive hmem => (hdirectives directive hmem).1, ?_⟩
    exact List.forall_mem_singleton.mpr (Field.wellFormed_plain (by decide)
      (fun _ h => absurd h List.not_mem_nil) ⟨rfl, (by decide : IsName Naming.booleanType)⟩)
  exact ⟨⟨(by decide : ["Note"].Nodup), List.forall_mem_singleton.mpr rfl⟩, List.cons_ne_nil _ _,
    List.forall_mem_singleton.mpr (hplain.printable hwellFormed (List.cons_ne_nil _ _))⟩

theorem auditAll_reads_back_iff_diary :
    ofText (diary "madeOn").schema.render = .ok (diary "madeOn").schema ∧
    ∃ names after, (auditAll {}).onApi (diary "madeOn") = (.ok names, .direct after) ∧
      ofText after.schema.render = .ok after.schema := by
  have hread := ofText_render_eq_self_iff.mpr (printable_diary (by decide : Quotable "madeOn"))
  obtain ⟨names, after, h⟩ := exists_onApi_auditAll_of_isOk {} (diary "madeOn") (by decide +kernel)
  refine ⟨hread, names, after, h, (auditAll_reads_back_iff hread h).mpr fun target hmem settings hsettings field => ?_⟩
  obtain rfl := Except.ok.inj ((read_diary "madeOn" target hmem).symm.trans hsettings)
  cases field <;> decide

/-- A field may be given a name that is none: the text that is left is not read back. -/
theorem not_reads_back_diary :
    ofText (diary "made on").schema.render = .ok (diary "made on").schema ∧
    ∃ names after, (auditAll {}).onApi (diary "made on") = (.ok names, .direct after) ∧
      ofText after.schema.render ≠ .ok after.schema := by
  have hprintable := printable_diary (by decide : Quotable "made on")
  obtain ⟨names, after, h⟩ := exists_onApi_auditAll_of_isOk {} (diary "made on") (by decide +kernel)
  refine ⟨ofText_render_eq_self_iff.mpr hprintable, names, after, h, fun hafter => ?_⟩
  have hnames := isName_of_targetsEffect hprintable.keyed (targetsEffect_of_onApi_auditAll h)
    (ofText_render_eq_self_iff.mp hafter)
  have hname := hnames _ List.mem_cons_self _ (read_diary "made on" _ List.mem_cons_self) .createdAt
  exact absurd hname (by decide)

end Audit

end AuditFields
