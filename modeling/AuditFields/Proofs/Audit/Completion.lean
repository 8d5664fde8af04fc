import Mathlib.Data.List.Induction
import AuditFields.Proofs.Audit.Contract
import AuditFields.Proofs.Drafts.Faithful

/-!
# Completing a type under shared names

The names of the bookkeeping fields may coincide with each other and with those of declared fields in
any pattern. A type can be completed if each name goes together with all that use it (`Agrees`): what
the type declares under it fits every bookkeeping field of the name, and what it does not declare is
used by times only or by actors only. That is to say that no field breaks the contract, and it is the
order of the check that makes the names of the added fields the undeclared ones, each once and where it
first occurs (`names_lackedAmong`). A type that has been completed is complete, so that doing it again
does nothing.
-/

namespace AuditFields.Audit

open Schema

variable {settings : Settings} {object : ObjectType} {type : String} {workspace : Workspace}

/-! ## Names that go together -/

/-- The type goes together with the names of the bookkeeping fields. -/
structure Agrees (settings : Settings) (object : ObjectType) : Prop where
  /-- A declared field fits every bookkeeping field of its name. -/
  declared (name : String) : ∀ declared ∈ object.field? name, ∀ field, settings.name field = name →
    field.Fits settings.identityRequired declared.type
  flag : object.field? (settings.name .deleted) ≠ none
  /-- The bookkeeping fields of a name that is not declared are all times or all actors. -/
  shared (name : String) : object.field? name = none →
    (∀ field, settings.name field = name → field.kind = .time) ∨
      ∀ field, settings.name field = name → field.kind = .actor

theorem Agrees.not_breaks (h : Agrees settings object) (field : AuditField) :
    ¬Breaks settings object field := by
  cases hdeclared : object.field? (settings.name field) with
  | some declared =>
    rw [breaks_of_some hdeclared, Classical.not_not]
    exact h.declared _ declared hdeclared field rfl
  | none =>
    rw [breaks_of_none hdeclared]
    have hfirst := name_firstNamed settings field
    rcases h.shared _ hdeclared with htimes | hactors
    · rw [htimes field rfl, htimes _ hfirst]
      decide
    · rw [hactors field rfl, hactors _ hfirst]
      decide

/-- Fields of a name that is not declared are of one kind, since each is of the kind of the first. -/
theorem kind_eq_of_not_breaks {field other : AuditField} (h : ∀ field, ¬Breaks settings object field)
    (hdeclared : object.field? (settings.name field) = none)
    (hname : settings.name other = settings.name field) : other.kind = field.kind := by
  have hkind : ∀ user, settings.name user = settings.name field →
      (firstNamed settings user).kind = user.kind := by
    intro user huser
    have hnot := h user
    rw [breaks_of_none (huser ▸ hdeclared), not_or] at hnot
    exact Classical.not_not.mp hnot.2
  rw [← hkind other hname, firstNamed_congr hname, hkind field rfl]

theorem kind_ne_flag_of_not_breaks {field : AuditField} (h : ¬Breaks settings object field)
    (hdeclared : object.field? (settings.name field) = none) : field.kind ≠ .flag :=
  fun hflag => h ((breaks_of_none hdeclared).mpr (Or.inl hflag))

theorem agrees_iff : Agrees settings object ↔ ∀ field, ¬Breaks settings object field := by
  refine ⟨Agrees.not_breaks, fun h => ⟨?_, ?_, ?_⟩⟩
  · rintro _ declared hdeclared field rfl
    exact Classical.not_not.mp ((breaks_of_some hdeclared).not.mp (h field))
  · exact fun hnone => kind_ne_flag_of_not_breaks (h .deleted) hnone rfl
  · intro name hnone
    by_cases hused : ∃ user, settings.name user = name
    · obtain ⟨user, rfl⟩ := hused
      cases huser : user.kind with
      | time => exact Or.inl fun field hname => (kind_eq_of_not_breaks h hnone hname).trans huser
      | actor => exact Or.inr fun field hname => (kind_eq_of_not_breaks h hnone hname).trans huser
      | flag => exact absurd huser (kind_ne_flag_of_not_breaks (h user) hnone)
    · exact Or.inl fun field hname => absurd ⟨field, hname⟩ hused

/-! ## The fields that are added -/

/-- The names that a type does not declare, each once, in the order of the bookkeeping fields. -/
def undeclaredNames (settings : Settings) (object : ObjectType) (fields : List AuditField) :
    List String :=
  ((fields.map settings.name).filter fun name => (object.field? name).isNone).eraseDups

theorem eraseDups_filter_concat {α : Type} [DecidableEq α] (p : α → Bool) (xs : List α) (x : α) :
    ((xs ++ [x]).filter p).eraseDups =
      (xs.filter p).eraseDups ++ if p x = true ∧ x ∉ xs then [x] else [] := by
  rw [List.filter_append, List.eraseDups_append, List.removeAll]
  by_cases hp : p x = true
  · by_cases hearlier : x ∈ xs
    · simp [hp, hearlier]
    · simp [hp, hearlier, List.eraseDups_cons]
  · simp [hp]

theorem firstNamed_eq_self_iff {done rest : List AuditField} {field : AuditField}
    (hall : AuditField.all = done ++ field :: rest) :
    firstNamed settings field = field ↔ settings.name field ∉ done.map settings.name := by
  constructor
  · intro hfirst hmem
    obtain ⟨other, hother, hname⟩ := List.mem_map.mp hmem
    have hfound : (done.find? fun other => settings.name other == settings.name field).isSome :=
      List.find?_isSome.mpr ⟨other, hother, beq_iff_eq.mpr hname⟩
    obtain ⟨first, hfound⟩ := Option.isSome_iff_exists.mp hfound
    rw [firstNamed, hall, List.find?_append, hfound] at hfirst
    refine AuditField.not_mem_of_all_eq hall ?_
    rw [← hfirst]
    exact List.mem_of_find?_eq_some hfound
  · intro hfresh
    refine (firstNamed_cases hall).resolve_left fun hearlier => hfresh ?_
    rw [← name_firstNamed settings field]
    exact List.mem_map_of_mem hearlier

theorem names_lackedAmong {done rest : List AuditField} (hall : AuditField.all = done ++ rest) :
    (lackedAmong settings object done).map (·.name) = undeclaredNames settings object done := by
  induction done using List.reverseRecOn generalizing rest with
  | nil => rfl
  | append_singleton done field ih =>
    rw [List.append_assoc] at hall
    have hlacks : Lacks settings object field ↔ object.field? (settings.name field) = none ∧
        settings.name field ∉ done.map settings.name :=
      and_congr_right fun _ => firstNamed_eq_self_iff hall
    rw [lackedAmong_concat, List.map_append, ih hall, undeclaredNames, undeclaredNames, List.map_append,
      List.map_singleton, eraseDups_filter_concat]
    simp only [Option.isNone_iff_eq_none, ← hlacks]
    split
    · rfl
    · rfl

/-- The fields that a completed type has besides its own: one for each name that it does not declare,
which is a number if times have the name and an identifier if actors have it. -/
structure Supplies (settings : Settings) (object : ObjectType) (added : List Field) : Prop where
  names : added.map (·.name) = undeclaredNames settings object AuditField.all
  time : ∀ field, field.kind = .time → ∀ new ∈ added, new.name = settings.name field →
    new = .plain (settings.name field) [] (.named "Float")
  actor : ∀ field, field.kind = .actor → ∀ new ∈ added, new.name = settings.name field →
    new = .plain (settings.name field) []
      (if settings.identityRequired then .nonNull (.named "ID") else .named "ID")

theorem eq_plain_of_mem_lackedFields {field : AuditField} {new : Field} (h : Agrees settings object)
    (hnew : new ∈ lackedFields settings object) (hname : new.name = settings.name field) :
    new = .plain (settings.name field) [] (field.kind.type settings.identityRequired) := by
  obtain ⟨other, hother, rfl⟩ := List.mem_map.mp hnew
  have hlacks : Lacks settings object other := of_decide_eq_true (List.mem_filter.mp hother).2
  have hshared : settings.name other = settings.name field := hname
  have hkind := kind_eq_of_not_breaks h.not_breaks (hshared ▸ hlacks.1) hshared
  rw [addedField, AuditField.type, hshared, hkind]

theorem supplies_lackedFields (h : Agrees settings object) :
    Supplies settings object (lackedFields settings object) where
  names := names_lackedAmong (List.append_nil _).symm
  time field hkind new hnew hname := by
    rw [eq_plain_of_mem_lackedFields h hnew hname, hkind]
    rfl
  actor field hkind new hnew hname := by
    rw [eq_plain_of_mem_lackedFields h hnew hname, hkind]
    rfl

/-! ## The check -/

theorem missingFields_of_agrees (h : Agrees settings object) :
    missingFields settings object type = .ok (lackedFields settings object) := by
  have hnone : AuditField.all.filter (Breaks settings object) = [] :=
    List.filter_eq_nil_iff.mpr fun field _ hbreaks => h.not_breaks field (of_decide_eq_true hbreaks)
  rw [missingFields_eq, brokenFields, hnone]
  rfl

theorem missingFields_of_not_agrees (h : ¬Agrees settings object) :
    ∃ before field later, AuditField.all = before ++ field :: later ∧
      (∀ earlier ∈ before, ¬Breaks settings object earlier) ∧ Breaks settings object field ∧
      missingFields settings object type = .error (broken settings type field) := by
  rw [agrees_iff, Classical.not_forall_not] at h
  obtain ⟨culprit, hculprit⟩ := h
  cases hbroken : AuditField.all.filter (Breaks settings object) with
  | nil =>
    have hnot := List.filter_eq_nil_iff.mp hbroken culprit (AuditField.mem_all culprit)
    exact absurd (decide_eq_true hculprit) hnot
  | cons field others =>
    obtain ⟨before, later, hall, hbefore, hfield, _⟩ := List.filter_eq_cons_iff.mp hbroken
    refine ⟨before, field, later, hall, fun earlier hmem hbreaks =>
      hbefore earlier hmem (decide_eq_true hbreaks), of_decide_eq_true hfield, ?_⟩
    rw [missingFields_eq, brokenFields, hbroken]
    rfl

theorem missingFields_of_complete (h : Complete settings object) :
    missingFields settings object type = .ok [] := by
  have hagrees : Agrees settings object := by
    refine agrees_iff.mpr fun field => ?_
    obtain ⟨declared, hdeclared, hfits⟩ := h field
    rw [breaks_of_some hdeclared, Classical.not_not]
    exact hfits
  have hlacked : AuditField.all.filter (Lacks settings object) = [] := by
    refine List.filter_eq_nil_iff.mpr fun field _ hlacks => ?_
    obtain ⟨declared, hdeclared, _⟩ := h field
    cases hdeclared.symm.trans (of_decide_eq_true hlacks).1
  rw [missingFields_of_agrees hagrees, lackedFields, lackedAmong, hlacked]
  rfl

/-! ## The task -/

theorem run_completeFields_of_error {failure : Failure}
    (hshown : workspace.type? type = some (.object object))
    (h : missingFields settings object type = .error failure) :
    (completeFields settings type).runOn workspace = (.error failure, { state := workspace }) := by
  rw [completeFields, Task.runOn, Task.run_bind_of_ok (Task.run_state _), hshown]
  simp only [Option.bind_some, TypeDefinition.object?, h]
  rfl

/-- The workspace with a type in which fields are added. -/
def withFields (workspace : Workspace) (object : ObjectType) (added : List Field) : Workspace :=
  if added = [] then workspace else workspace.apply (.type (.object (object.addFields added)))

theorem run_completeFields_of_ok {added : List Field}
    (hshown : workspace.type? type = some (.object object))
    (h : missingFields settings object type = .ok added) :
    (completeFields settings type).runOn workspace =
      (.ok (), { state := withFields workspace object added
                 events := if added = [] then [] else [.adding (added.map (·.name)) type] }) := by
  rw [completeFields, Task.runOn, Task.run_bind_of_ok (Task.run_state _), hshown]
  simp only [Option.bind_some, TypeDefinition.object?, h]
  cases added with
  | nil => rfl
  | cons first rest => rfl

theorem type?_withFields (hshown : workspace.type? object.name = some (.object object))
    (added : List Field) :
    (withFields workspace object added).type? object.name = some (.object (object.addFields added)) := by
  unfold withFields
  split
  · next hnone => rw [hnone, ObjectType.addFields_nil, hshown]
  · rw [Workspace.type?_apply]
    exact if_pos rfl

/-- **Whatever names coincide, the bookkeeping fields of a type can be completed exactly if the type
agrees with the names.** The type then gains one field for each name that it did not declare, behind its
own fields, and completing it once more does nothing. Otherwise the first bookkeeping field that breaks
the contract is named, and the workspace stays as it was. -/
theorem runOn_completeFields (hshown : workspace.type? object.name = some (.object object)) :
    ((∃ after, (completeFields settings object.name).runOn workspace = (.ok (), after)) ↔
      Agrees settings object) ∧
    (∀ after, (completeFields settings object.name).runOn workspace = (.ok (), after) →
      ∃ added, Supplies settings object added ∧
        after.state = withFields workspace object added ∧
        after.state.type? object.name =
          some (.object { object with fields := object.fields ++ added }) ∧
        (completeFields settings object.name).runOn after.state = (.ok (), { state := after.state })) ∧
    ∀ failure after, (completeFields settings object.name).runOn workspace = (.error failure, after) →
      after.state = workspace ∧
      ∃ before field later, AuditField.all = before ++ field :: later ∧
        (∀ earlier ∈ before, ¬Breaks settings object earlier) ∧ Breaks settings object field ∧
        failure = .contract object.name field (settings.name field)
          (field.type settings.identityRequired) := by
  by_cases hagrees : Agrees settings object
  · have hmissing : missingFields settings object object.name = .ok (lackedFields settings object) :=
      missingFields_of_agrees hagrees
    have hrun := run_completeFields_of_ok hshown hmissing
    rw [hrun]
    refine ⟨⟨fun _ => hagrees, fun _ => ⟨_, rfl⟩⟩, ?_, ?_⟩
    · intro after hafter
      obtain rfl := (Prod.mk.inj hafter).2
      have hcompleted := type?_withFields hshown (lackedFields settings object)
      have hnothing : missingFields settings (object.addFields (lackedFields settings object))
          object.name = .ok [] := missingFields_of_complete (complete_addFields hmissing)
      exact ⟨_, supplies_lackedFields hagrees, rfl, hcompleted,
        run_completeFields_of_ok hcompleted hnothing⟩
    · intro failure after hafter
      cases (Prod.mk.inj hafter).1
  · obtain ⟨before, field, later, hall, hbefore, hfield, hmissing⟩ :=
      missingFields_of_not_agrees hagrees
    rw [run_completeFields_of_error hshown hmissing]
    refine ⟨⟨fun ⟨after, hafter⟩ => ?_, fun h => absurd h hagrees⟩, ?_, ?_⟩
    · cases (Prod.mk.inj hafter).1
    · intro after hafter
      cases (Prod.mk.inj hafter).1
    · intro failure after hafter
      obtain ⟨hfailure, rfl⟩ := Prod.mk.inj hafter
      exact ⟨rfl, before, field, later, hall, hbefore, hfield, (Except.error.inj hfailure).symm⟩

/-! ## A type under shared names -/

/-- A type that declares the flag. -/
def note : ObjectType :=
  .plain "Note" [.plain "deleted" [] (.nonNull (.named Naming.booleanType))]

/-- The type in a draft. -/
def notes : Workspace :=
  (Workspace.direct { schema := { types := [("Note", .object note)] } }).openDraft

/-- All actors share a name. -/
def oneActor : Settings :=
  ((({} : Settings).rename .createdBy "actor").rename .updatedBy "actor").rename .deletedBy "actor"

/-- A time and an actor share a name. -/
def oneStamp : Settings :=
  (({} : Settings).rename .createdAt "stamp").rename .createdBy "stamp"

theorem runOn_completeFields_note :
    notes.type? note.name = some (.object note) ∧
    (Agrees oneActor note ∧
      undeclaredNames oneActor note AuditField.all = ["createdAt", "actor", "updatedAt", "deletedAt"]) ∧
    ¬Agrees oneStamp note ∧
    ((completeFields oneStamp note.name).runOn notes).1 =
      .error (.contract "Note" .createdBy "stamp" (.named "ID")) := by
  have hshown : notes.type? note.name = some (.object note) := rfl
  refine ⟨hshown, ⟨(runOn_completeFields hshown).1.mp ⟨_, rfl⟩, by decide⟩, fun hagrees => ?_, rfl⟩
  obtain ⟨after, hafter⟩ := (runOn_completeFields hshown).1.mpr hagrees
  cases (Prod.mk.inj hafter).1

end AuditFields.Audit
