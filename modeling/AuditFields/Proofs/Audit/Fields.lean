import AuditFields.Audit.Fields
import AuditFields.Proofs.Result

/-!
# Complete types

A type is complete for its settings if, for every bookkeeping field, the first field of its name fits:
it has the named type of its kind and is non-null where that matters. Bookkeeping fields may share
names, so a field that is added for one of them can be the one that another is checked against. The
invariant of the check is about the type with the fields added so far: every bookkeeping field looked
at has a first field of its name there, and later ones, which come after it, do not change which that
is (`field?_addFields_of_some`).
-/

namespace AuditFields

open Schema

/-! ## Fields that fit -/

/-- The type is one that the bookkeeping field may have: a number for a time, an identifier for an
actor, which is there if an identity is required, and a boolean that is always there for the flag. -/
def AuditField.Fits (field : AuditField) (identityRequired : Bool) (type : TypeRef) : Prop :=
  match field.kind with
  | .time => type.baseName = Naming.floatType
  | .actor =>
    type.baseName = Naming.idType ∧ (identityRequired = true → type.isNonNull = true)
  | .flag => type.baseName = Naming.booleanType ∧ type.isNonNull = true

theorem AuditField.accepts_iff_fits {field : AuditField} {identityRequired : Bool} {type : TypeRef} :
    field.accepts identityRequired type = true ↔ field.Fits identityRequired type := by
  unfold accepts Fits AuditField.type
  cases field.kind with
  | time => simp [Kind.type, TypeRef.baseName, TypeRef.isNonNull]
  | actor => cases identityRequired <;> simp [Kind.type, TypeRef.baseName, TypeRef.isNonNull]
  | flag => simp [Kind.type, TypeRef.baseName, TypeRef.isNonNull]

theorem AuditField.fits_type (field : AuditField) (identityRequired : Bool) :
    field.Fits identityRequired (field.type identityRequired) := by
  rw [← accepts_iff_fits, accepts]
  cases (field.type identityRequired).isNonNull <;> simp

/-! ## Fields at the end of a type -/

namespace Schema.ObjectType

theorem addFields_nil (object : ObjectType) : object.addFields [] = object := by
  rw [addFields, List.append_nil]

theorem addFields_addFields (object : ObjectType) (first second : List Field) :
    (object.addFields first).addFields second = object.addFields (first ++ second) := by
  simp only [addFields, List.append_assoc]

theorem field?_addFields (object : ObjectType) (added : List Field) (name : String) :
    (object.addFields added).field? name =
      (object.field? name <|> added.find? (·.name == name)) := by
  simp only [field?, addFields, List.find?_append]
  cases object.fields.find? (·.name == name) with
  | some field => rfl
  | none => rfl

theorem field?_addFields_of_some {object : ObjectType} {name : String} {field : Field}
    (h : object.field? name = some field) (added : List Field) :
    (object.addFields added).field? name = some field := by
  rw [field?_addFields, h]
  rfl

end Schema.ObjectType

namespace Audit

/-! ## The check -/

/-- The first field of the name of a bookkeeping field fits. -/
def HasField (settings : Settings) (object : ObjectType) (field : AuditField) : Prop :=
  ∃ declared, object.field? (settings.name field) = some declared ∧
    field.Fits settings.identityRequired declared.type

/-- The type has every bookkeeping field. -/
def Complete (settings : Settings) (object : ObjectType) : Prop :=
  ∀ field, HasField settings object field

theorem HasField.addFields {settings : Settings} {object : ObjectType} {field : AuditField}
    (h : HasField settings object field) (added : List Field) :
    HasField settings (object.addFields added) field := by
  obtain ⟨declared, hdeclared, hfits⟩ := h
  exact ⟨declared, ObjectType.field?_addFields_of_some hdeclared added, hfits⟩

theorem Complete.addFields {settings : Settings} {object : ObjectType} (h : Complete settings object)
    (added : List Field) : Complete settings (object.addFields added) :=
  fun field => (h field).addFields added

/-- The step: a field that passes the check is there once the new fields are added. -/
theorem checkField_ok {settings : Settings} {object : ObjectType} {type : String}
    {added after : List Field} {field : AuditField}
    (h : checkField settings object type added field = .ok after) :
    (∃ more, after = added ++ more) ∧ HasField settings (object.addFields after) field := by
  rw [checkField] at h
  rw [← ObjectType.field?_addFields] at h
  cases hdeclared : (object.addFields added).field? (settings.name field) with
  | some declared =>
    rw [hdeclared] at h
    dsimp only at h
    split at h
    · next haccepts =>
      obtain rfl := Except.ok.inj h
      exact ⟨⟨[], (List.append_nil _).symm⟩, declared, hdeclared,
        AuditField.accepts_iff_fits.mp haccepts⟩
    · cases h
  | none =>
    rw [hdeclared] at h
    dsimp only at h
    split at h
    · obtain rfl := Except.ok.inj h
      refine ⟨⟨_, rfl⟩, addedField settings field, ?_, field.fits_type settings.identityRequired⟩
      rw [← ObjectType.addFields_addFields, ObjectType.field?_addFields, hdeclared]
      simp [addedField, Field.plain]
    · cases h

/-- The run: all fields that pass the check are there in the end. -/
theorem foldlM_checkField_ok {settings : Settings} {object : ObjectType} {type : String}
    {fields : List AuditField} {added after : List Field}
    (h : fields.foldlM (checkField settings object type) added = .ok after) :
    (∃ more, after = added ++ more) ∧
      ∀ field ∈ fields, HasField settings (object.addFields after) field := by
  induction fields generalizing added with
  | nil =>
    obtain rfl := Except.ok.inj h
    exact ⟨⟨[], (List.append_nil _).symm⟩, fun _ hmem => nomatch hmem⟩
  | cons first rest ih =>
    obtain ⟨next, hfirst, hrest⟩ := Except.foldlM_cons_eq_ok_iff.mp h
    obtain ⟨⟨one, rfl⟩, hhas⟩ := checkField_ok hfirst
    obtain ⟨⟨more, rfl⟩, hall⟩ := ih hrest
    refine ⟨⟨one ++ more, List.append_assoc _ _ _⟩, fun field hmem => ?_⟩
    rcases List.mem_cons.mp hmem with rfl | hmem
    · rw [← ObjectType.addFields_addFields]
      exact hhas.addFields more
    · exact hall field hmem

/-- A type is complete once its missing fields are added. -/
theorem complete_addFields {settings : Settings} {object : ObjectType} {type : String}
    {added : List Field} (h : missingFields settings object type = .ok added) :
    Complete settings (object.addFields added) :=
  fun field => (foldlM_checkField_ok h).2 field (AuditField.mem_all field)

end Audit

end AuditFields
