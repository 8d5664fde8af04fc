import AuditFields.Proofs.Audit.Fields

/-!
# The contract of the bookkeeping fields

The bookkeeping fields are checked one after the other, each against the declared fields and those that
were added for the ones before it. What comes of it can be said of each field by itself, because of
all bookkeeping fields that share a name only the first can be added: a declared field breaks the
contract if its type does not fit, one that is not declared if it is the flag or is of another kind
than the first of its name (`Breaks`), and what is added are the undeclared ones that are the first of
their names (`lackedFields`).
-/

namespace AuditFields

open Schema

instance (field : AuditField) (identityRequired : Bool) :
    DecidablePred (field.Fits identityRequired) :=
  fun _ => decidable_of_iff _ AuditField.accepts_iff_fits

theorem AuditField.Kind.eq_of_baseName_type {kind other : Kind} {identityRequired : Bool}
    (h : (kind.type identityRequired).baseName = (other.type identityRequired).baseName) :
    kind = other := by
  revert h
  cases kind <;> cases other <;> cases identityRequired <;> decide

theorem AuditField.fits_type_iff {field other : AuditField} {identityRequired : Bool} :
    field.Fits identityRequired (other.type identityRequired) ↔ other.kind = field.kind := by
  constructor
  · intro h
    rw [← accepts_iff_fits, accepts, Bool.and_eq_true, beq_iff_eq] at h
    exact Kind.eq_of_baseName_type h.1
  · intro h
    have hfits := field.fits_type identityRequired
    rwa [type, ← h] at hfits

theorem AuditField.eq_of_kind_flag {field other : AuditField} (h : field.kind = .flag)
    (hother : other.kind = .flag) : field = other := by
  cases field <;> cases h
  cases other <;> cases hother
  rfl

theorem AuditField.nodup_all : AuditField.all.Nodup := by
  decide

theorem AuditField.not_mem_of_all_eq {done rest : List AuditField} {field : AuditField}
    (h : all = done ++ field :: rest) : field ∉ done := by
  have hnodup := nodup_all
  rw [h] at hnodup
  exact fun hmem => (List.nodup_append.mp hnodup).2.2 field hmem field List.mem_cons_self rfl

namespace Audit

variable {settings : Settings} {object : ObjectType} {type : String}

/-! ## Shared names -/

/-- The first of the bookkeeping fields that have the name of this one. -/
def firstNamed (settings : Settings) (field : AuditField) : AuditField :=
  (AuditField.all.find? fun other => settings.name other == settings.name field).getD field

theorem name_firstNamed (settings : Settings) (field : AuditField) :
    settings.name (firstNamed settings field) = settings.name field := by
  unfold firstNamed
  cases hfound : AuditField.all.find? fun other => settings.name other == settings.name field with
  | none => rfl
  | some first =>
    exact beq_iff_eq.mp (List.find?_some (p := fun other => settings.name other == _) hfound)

theorem firstNamed_congr {field other : AuditField} (h : settings.name field = settings.name other) :
    firstNamed settings field = firstNamed settings other := by
  unfold firstNamed
  rw [h]
  cases hfound : AuditField.all.find? fun another => settings.name another == settings.name other with
  | none =>
    have hself := List.find?_eq_none.mp hfound other (AuditField.mem_all other)
    simp at hself
  | some first => rfl

theorem firstNamed_cases {done rest : List AuditField} {field : AuditField}
    (h : AuditField.all = done ++ field :: rest) :
    firstNamed settings field ∈ done ∨ firstNamed settings field = field := by
  unfold firstNamed
  rw [h, List.find?_append]
  cases hfound : done.find? fun other => settings.name other == settings.name field with
  | some first => exact Or.inl (List.mem_of_find?_eq_some hfound)
  | none => exact Or.inr (by simp)

/-! ## What is broken and what is added -/

/-- A declared bookkeeping field breaks the contract if its type does not fit. One that is not declared
breaks it if it is the flag, or of another kind than the first of its name. -/
def Breaks (settings : Settings) (object : ObjectType) (field : AuditField) : Prop :=
  (∃ declared ∈ object.field? (settings.name field),
    ¬field.Fits settings.identityRequired declared.type) ∨
  object.field? (settings.name field) = none ∧
    (field.kind = .flag ∨ (firstNamed settings field).kind ≠ field.kind)

instance (settings : Settings) (object : ObjectType) : DecidablePred (Breaks settings object) :=
  fun _ => inferInstanceAs (Decidable (_ ∨ _))

theorem breaks_of_some {field : AuditField} {declared : Field}
    (h : object.field? (settings.name field) = some declared) :
    Breaks settings object field ↔ ¬field.Fits settings.identityRequired declared.type := by
  simp [Breaks, h]

theorem breaks_of_none {field : AuditField} (h : object.field? (settings.name field) = none) :
    Breaks settings object field ↔
      field.kind = .flag ∨ (firstNamed settings field).kind ≠ field.kind := by
  simp [Breaks, h]

/-- The failures of the fields that break the contract, in the order of the bookkeeping fields. -/
def brokenFields (settings : Settings) (object : ObjectType) (type : String) : List Failure :=
  (AuditField.all.filter (Breaks settings object)).map (broken settings type)

/-- The field is not declared, and it is the first of its name. -/
def Lacks (settings : Settings) (object : ObjectType) (field : AuditField) : Prop :=
  object.field? (settings.name field) = none ∧ firstNamed settings field = field

instance (settings : Settings) (object : ObjectType) : DecidablePred (Lacks settings object) :=
  fun _ => inferInstanceAs (Decidable (_ ∧ _))

/-- The fields that a type lacks among some of the bookkeeping fields. -/
def lackedAmong (settings : Settings) (object : ObjectType) (fields : List AuditField) : List Field :=
  (fields.filter (Lacks settings object)).map (addedField settings)

/-- The fields that a type lacks. -/
def lackedFields (settings : Settings) (object : ObjectType) : List Field :=
  lackedAmong settings object AuditField.all

/-! ## The check -/

theorem firstNamed_of_find? {done : List AuditField} {field : AuditField} {found : Field}
    (h : (lackedAmong settings object done).find? (·.name == settings.name field) = some found) :
    firstNamed settings field ∈ done ∧ found = addedField settings (firstNamed settings field) := by
  obtain ⟨other, hother, rfl⟩ := List.mem_map.mp (List.mem_of_find?_eq_some h)
  obtain ⟨hmem, hlacks⟩ := List.mem_filter.mp hother
  have hname := List.find?_some (p := fun found : Field => found.name == settings.name field) h
  rw [← firstNamed_congr (beq_iff_eq.mp hname), (of_decide_eq_true hlacks).2]
  exact ⟨hmem, rfl⟩

theorem firstNamed_not_mem_of_find? {done : List AuditField} {field : AuditField}
    (hdeclared : object.field? (settings.name field) = none)
    (h : (lackedAmong settings object done).find? (·.name == settings.name field) = none) :
    firstNamed settings field ∉ done := by
  intro hmem
  have hname := name_firstNamed settings field
  have hlacks : Lacks settings object (firstNamed settings field) :=
    ⟨by rw [hname, hdeclared], firstNamed_congr hname⟩
  have hadded : addedField settings (firstNamed settings field) ∈ lackedAmong settings object done :=
    List.mem_map_of_mem (List.mem_filter.mpr ⟨hmem, decide_eq_true hlacks⟩)
  have hnot := List.find?_eq_none.mp h _ hadded
  exact hnot (beq_iff_eq.mpr hname)

theorem lackedAmong_concat (done : List AuditField) (field : AuditField) :
    lackedAmong settings object (done ++ [field]) =
      lackedAmong settings object done ++
        if Lacks settings object field then [addedField settings field] else [] := by
  rw [lackedAmong, List.filter_append, List.map_append, ← lackedAmong]
  split
  · next h => simp [h]
  · next h => simp [h]

/-- The step: a field is checked against those declared and those that earlier ones lacked. -/
theorem checkField_eq {done rest : List AuditField} {field : AuditField}
    (hall : AuditField.all = done ++ field :: rest) :
    checkField settings object type (lackedAmong settings object done) field =
      if Breaks settings object field then .error (broken settings type field)
      else .ok (lackedAmong settings object (done ++ [field])) := by
  rw [checkField, lackedAmong_concat, Option.orElse_eq_orElse, Option.orElse_eq_or]
  cases hdeclared : object.field? (settings.name field) with
  | some declared =>
    have hlacks : ¬Lacks settings object field := fun h => by cases hdeclared.symm.trans h.1
    simp only [Option.some_or, AuditField.accepts_iff_fits, breaks_of_some hdeclared, hlacks,
      if_false, List.append_nil, ite_not]
  | none =>
    rw [Option.none_or]
    cases hfound : (lackedAmong settings object done).find? (·.name == settings.name field) with
    | some found =>
      -- An earlier field of the name was added, so this one has to be of its kind, and is no flag then.
      obtain ⟨hearlier, rfl⟩ := firstNamed_of_find? hfound
      have hne : firstNamed settings field ≠ field := fun heq =>
        AuditField.not_mem_of_all_eq hall (heq ▸ hearlier)
      have hlacks : ¬Lacks settings object field := fun h => hne h.2
      have hbreaks : Breaks settings object field ↔ (firstNamed settings field).kind ≠ field.kind := by
        rw [breaks_of_none hdeclared]
        refine ⟨fun h => h.elim (fun hflag heq => hne ?_) id, Or.inr⟩
        exact AuditField.eq_of_kind_flag (heq.trans hflag) hflag
      have haccepts : field.accepts settings.identityRequired
          (addedField settings (firstNamed settings field)).type = true ↔
          (firstNamed settings field).kind = field.kind :=
        AuditField.accepts_iff_fits.trans AuditField.fits_type_iff
      simp only [haccepts, hbreaks, hlacks, if_false, List.append_nil, ite_not]
    | none =>
      have hfirst : firstNamed settings field = field :=
        (firstNamed_cases hall).resolve_left (firstNamed_not_mem_of_find? hdeclared hfound)
      have hbreaks : Breaks settings object field ↔ field.kind = .flag := by
        rw [breaks_of_none hdeclared, hfirst]
        simp
      have hlacks : Lacks settings object field := ⟨hdeclared, hfirst⟩
      simp only [AuditField.isAdded, bne_iff_ne, hbreaks, hlacks, if_true, ite_not]

/-- The fields that a type lacks are added to it, unless one breaks the contract: the first one that
does counts. -/
theorem missingFields_eq :
    missingFields settings object type =
      (Except.verdict (brokenFields settings object type)).map fun _ => lackedFields settings object := by
  have hrun : AuditField.all.foldlM (checkField settings object type) (lackedAmong settings object []) =
      (Except.verdict (AuditField.all.filterMap fun field =>
        (Option.guard (Breaks settings object ·) field).map (broken settings type))).map
        fun _ => lackedAmong settings object AuditField.all := by
    refine Except.foldlM_eq_verdict _ (lackedAmong settings object) fun done field rest hall => ?_
    rw [checkField_eq hall]
    by_cases hbreaks : Breaks settings object field
    · simp [Option.guard, hbreaks]
    · simp [Option.guard, hbreaks]
  rwa [← List.map_filterMap, List.filterMap_eq_filter] at hrun

end Audit

end AuditFields
