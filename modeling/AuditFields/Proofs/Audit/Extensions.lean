import AuditFields.Proofs.Audit.Types

/-!
# Whether inputs are sealed

What a client may set is spread over a document: the fields of an input type are those of its definition,
and those of its extensions. Auditing takes the bookkeeping fields out of the definitions of the create
and update inputs, and never looks at an extension. So in the end these definitions are clear of them
(`Hidden`), the extensions are what they were, and a client can set exactly the bookkeeping fields that
the extensions bring in.
-/

namespace AuditFields

open Schema

namespace Schema

/-- The extensions of the input type of a name. -/
def inputExtensions (schema : Schema) (name : String) : List InputType :=
  (schema.extensions.filterMap TypeDefinition.input?).filter (·.name == name)

/-- The fields that the extensions of an input type bring in. -/
def extensionFields (schema : Schema) (name : String) : List InputField :=
  (schema.inputExtensions name).flatMap (·.fields)

/-- The fields of an input type as a client meets it: those of its definition, if there is one, and those
of its extensions. -/
def mergedFields (schema : Schema) (name : String) : List InputField :=
  match schema.get? name with
  | some (.input input) => input.fields ++ schema.extensionFields name
  | _ => schema.extensionFields name

end Schema

namespace Audit

variable {config : Config} {settings : Settings} {type name : String} {api after : Api}

/-! ## What a client can set -/

/-- The bookkeeping fields among the fields of an input. -/
def exposed (settings : Settings) (fields : List InputField) : List InputField :=
  fields.filter (settings.isAuditName ·.name)

theorem exposed_append (settings : Settings) (fields more : List InputField) :
    exposed settings (fields ++ more) = exposed settings fields ++ exposed settings more :=
  List.filter_append ..

theorem exposed_eq_nil_iff {fields : List InputField} :
    exposed settings fields = [] ↔ ∀ declared ∈ fields, ∀ field, declared.name ≠ settings.name field := by
  simp only [exposed, List.filter_eq_nil_iff, Bool.not_eq_true, isAuditName_eq_false_iff]

/-- No extension of the input type of the name has a bookkeeping field. -/
def Sealed (settings : Settings) (name : String) (schema : Schema) : Prop :=
  ∀ extension ∈ schema.inputExtensions name, ∀ declared ∈ extension.fields, ∀ field,
    declared.name ≠ settings.name field

theorem exposed_extensionFields_eq_nil_iff {schema : Schema} :
    exposed settings (schema.extensionFields name) = [] ↔ Sealed settings name schema := by
  rw [exposed_eq_nil_iff]
  constructor
  · intro h extension hextension declared hdeclared
    exact h declared (List.mem_flatMap.mpr ⟨extension, hextension, hdeclared⟩)
  · intro h declared hdeclared
    obtain ⟨extension, hextension, hmem⟩ := List.mem_flatMap.mp hdeclared
    exact h extension hextension declared hmem

theorem Hidden.exposed_mergedFields (h : Hidden settings name api) :
    exposed settings (api.schema.mergedFields name) =
      exposed settings (api.schema.extensionFields name) := by
  unfold mergedFields
  split
  · next input hinput =>
    rw [exposed_append, exposed_eq_nil_iff.mpr (h input hinput).2, List.nil_append]
  · rfl

/-! ## What auditing does about it -/

theorem upheld_of_mem_asked {names : List String} (hkeyed : api.schema.Keyed)
    (h : (auditAll config).onApi api = (.ok names, .direct after))
    (hmem : (type, settings) ∈ asked (annotated api.schema)) : Upheld settings type after := by
  obtain ⟨target, htarget, heq⟩ := List.mem_map.mp hmem
  obtain ⟨rfl, rfl⟩ := Prod.mk.inj heq
  have hobjects : ∀ target ∈ annotated api.schema,
      ∃ object, api.type? target.1.name = some (.object object) :=
    fun _ hmem => ⟨_, get?_of_mem_annotated hkeyed hmem⟩
  obtain ⟨_, hall⟩ := targetsEffect_upholds hkeyed hobjects (nodup_annotated hkeyed)
    (targetsEffect_of_onApi_auditAll h)
  obtain ⟨settings, hread, hupheld⟩ := hall target htarget
  rw [Settings.read_eq] at hread
  obtain ⟨_, _, rfl⟩ := Except.map_eq_ok_iff.mp hread
  exact hupheld

theorem inputExtensions_of_auditAll {names : List String} (hkeyed : api.schema.Keyed)
    (h : (auditAll config).onApi api = (.ok names, .direct after)) (name : String) :
    after.schema.inputExtensions name = api.schema.inputExtensions name := by
  obtain ⟨_, hframe⟩ := targetsEffect_types hkeyed (targetsEffect_of_onApi_auditAll h)
  rw [inputExtensions, hframe.extensions, ← inputExtensions]

/-- **In the end clients can set the bookkeeping fields that the extensions of an input brought in, and
no other.** For the create and the update input of every audited type, the bookkeeping fields of the
merged input are those of the extensions that were there from the start. So no extension has one and
the merged input exposes none exactly if the input was sealed before. -/
theorem auditAll_sealed_iff {names : List String} (hkeyed : api.schema.Keyed)
    (h : (auditAll config).onApi api = (.ok names, .direct after)) :
    ∀ type settings, (type, settings) ∈ asked (annotated api.schema) → ∀ mutation,
      let name := inputName type mutation
      exposed settings (after.schema.mergedFields name) =
        exposed settings (api.schema.extensionFields name) ∧
      (Sealed settings name after.schema ↔ Sealed settings name api.schema) ∧
      ((∀ declared ∈ after.schema.mergedFields name, ∀ field, declared.name ≠ settings.name field) ↔
        Sealed settings name api.schema) := by
  intro type settings hmem mutation name
  have hsame : after.schema.extensionFields name = api.schema.extensionFields name := by
    rw [extensionFields, inputExtensions_of_auditAll hkeyed h, ← extensionFields]
  have hexposed : exposed settings (after.schema.mergedFields name) =
      exposed settings (api.schema.extensionFields name) := by
    rw [((upheld_of_mem_asked hkeyed h hmem).hidden mutation).exposed_mergedFields, hsame]
  refine ⟨hexposed, ?_, ?_⟩
  · rw [← exposed_extensionFields_eq_nil_iff, hsame, exposed_extensionFields_eq_nil_iff]
  · rw [← exposed_eq_nil_iff, hexposed, exposed_extensionFields_eq_nil_iff]

/-! ## A journal with an extension -/

/-- The journal with an extension of the create input of its posts. -/
def journalWith (fields : List InputField) : Api :=
  { journal with schema := { journal.schema with
      extensions := [.input (.plain "CreatePostInput" fields)] } }

theorem keyed_journalWith (fields : List InputField) : (journalWith fields).schema.Keyed :=
  ⟨keyed_journal.nodup, keyed_journal.own⟩

theorem mem_asked_journalWith (fields : List InputField) :
    ("Post", {}) ∈ asked (annotated (journalWith fields).schema) := by
  have hasked : asked (annotated (journalWith fields).schema) = asked (annotated journal.schema) := rfl
  rw [hasked]
  decide

theorem auditAll_sealed_iff_journal :
    let api := journalWith [.plain "note" (.named Naming.idType)]
    api.schema.Keyed ∧ Sealed {} "CreatePostInput" api.schema ∧
    ∃ names after, (auditAll {}).onApi api = (.ok names, .direct after) ∧
      ("Post", {}) ∈ asked (annotated api.schema) ∧
      Sealed {} "CreatePostInput" after.schema ∧
      ∀ declared ∈ after.schema.mergedFields "CreatePostInput", ∀ field,
        declared.name ≠ ({} : Settings).name field := by
  intro api
  have hsealed : Sealed {} "CreatePostInput" api.schema := by
    rw [← exposed_extensionFields_eq_nil_iff]
    decide
  obtain ⟨names, after, h⟩ := exists_onApi_auditAll_of_isOk {} api (by decide +kernel)
  have hmem : ("Post", {}) ∈ asked (annotated api.schema) := mem_asked_journalWith _
  obtain ⟨_, hafter, hmerged⟩ := auditAll_sealed_iff (keyed_journalWith _) h "Post" {} hmem .create
  exact ⟨keyed_journalWith _, hsealed, names, after, h, hmem, hafter.mpr hsealed,
    hmerged.mpr hsealed⟩

/-- An extension with the time of a deletion stays as it is, and clients can set it. -/
theorem not_sealed_journal :
    let api := journalWith [.plain "deletedAt" (.named Naming.floatType)]
    api.schema.Keyed ∧ ∃ names after, (auditAll {}).onApi api = (.ok names, .direct after) ∧
      ("Post", {}) ∈ asked (annotated api.schema) ∧
      ¬Sealed {} "CreatePostInput" after.schema ∧
      exposed {} (after.schema.mergedFields "CreatePostInput") =
        [.plain "deletedAt" (.named Naming.floatType)] := by
  intro api
  have hkeyed : api.schema.Keyed := keyed_journalWith _
  obtain ⟨names, after, h⟩ := exists_onApi_auditAll_of_isOk {} api (by decide +kernel)
  have hmem : ("Post", {}) ∈ asked (annotated api.schema) := mem_asked_journalWith _
  have hsame := inputExtensions_of_auditAll hkeyed h "CreatePostInput"
  have hfields : exposed {} (after.schema.extensionFields "CreatePostInput") =
      [.plain "deletedAt" (.named Naming.floatType)] := by
    rw [extensionFields, hsame]
    decide
  refine ⟨hkeyed, names, after, h, hmem, fun hsealed => ?_, ?_⟩
  · rw [← exposed_extensionFields_eq_nil_iff, hfields] at hsealed
    cases hsealed
  · rw [← hfields]
    exact ((upheld_of_mem_asked hkeyed h hmem).hidden .create).exposed_mergedFields

end Audit

end AuditFields
