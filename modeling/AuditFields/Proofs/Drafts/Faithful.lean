import AuditFields.Proofs.Entries
import AuditFields.Workspace

/-!
# What a draft shows

A draft answers reads from maps of its own and keeps its changes in a list beside them. `settled` is
the API once the changes of every draft are made, in order; `Shows` says that all reads of a workspace
give what they give on an API. The two sides of a draft agree because a change writes the same type
under the same name wherever it is made (`typeWritten`), so a workspace that shows an API still does
after a change to both (`Shows.apply`), whatever the drafts and whatever the change.
-/

namespace AuditFields

open Schema

/-! ## Changes in order -/

/-- The API after changes, in order. -/
def Api.applyAll (api : Api) (edits : List Edit) : Api :=
  edits.foldl Api.apply api

/-- The workspace after changes, in order. -/
def Workspace.applyAll (workspace : Workspace) (edits : List Edit) : Workspace :=
  edits.foldl Workspace.apply workspace

@[simp]
theorem Api.applyAll_nil (api : Api) : api.applyAll [] = api := rfl

theorem Api.applyAll_cons (api : Api) (edit : Edit) (edits : List Edit) :
    api.applyAll (edit :: edits) = (api.apply edit).applyAll edits := rfl

theorem Api.applyAll_append (api : Api) (first second : List Edit) :
    api.applyAll (first ++ second) = (api.applyAll first).applyAll second :=
  List.foldl_append

@[simp]
theorem Api.mutationName_apply (api : Api) (edit : Edit) :
    (api.apply edit).mutationName = api.mutationName := by
  cases edit with
  | mutations fields =>
    simp only [Api.apply, Api.mutationName, Schema.addMutations]
    split
    · rfl
    · simp only [Schema.mutationName]
      cases api.schema.roots with
      | none => rfl
      | some roots => cases hroot : roots.mutation <;> simp [hroot]
  | _ => rfl

@[simp]
theorem Api.mutationName_applyAll (api : Api) (edits : List Edit) :
    (api.applyAll edits).mutationName = api.mutationName := by
  induction edits generalizing api with
  | nil => rfl
  | cons edit edits ih => rw [Api.applyAll_cons, ih, Api.mutationName_apply]

namespace Workspace

@[simp]
theorem applyAll_nil (workspace : Workspace) : workspace.applyAll [] = workspace := rfl

theorem applyAll_cons (workspace : Workspace) (edit : Edit) (edits : List Edit) :
    workspace.applyAll (edit :: edits) = (workspace.apply edit).applyAll edits := rfl

theorem applyAll_append (workspace : Workspace) (first second : List Edit) :
    workspace.applyAll (first ++ second) = (workspace.applyAll first).applyAll second :=
  List.foldl_append

theorem applyAll_direct (api : Api) (edits : List Edit) :
    (direct api).applyAll edits = .direct (api.applyAll edits) := by
  induction edits generalizing api with
  | nil => rfl
  | cons edit edits ih => exact ih (api.apply edit)

@[simp]
theorem record_edits (under : Workspace) (draft : Draft) (edit : Edit) :
    (record under draft edit).edits = draft.edits ++ [edit] := by
  cases edit <;> rfl

theorem applyAll_drafted (under : Workspace) (draft : Draft) (edits : List Edit) :
    ∃ after, (drafted under draft).applyAll edits = .drafted under after ∧
      after.edits = draft.edits ++ edits := by
  induction edits generalizing draft with
  | nil => exact ⟨draft, rfl, (List.append_nil _).symm⟩
  | cons edit edits ih =>
    obtain ⟨after, hafter, hedits⟩ := ih (record under draft edit)
    refine ⟨after, hafter, ?_⟩
    rw [hedits, record_edits, List.append_assoc]
    rfl

/-- A draft that is committed makes the changes that were made in it. -/
theorem commit_applyAll_openDraft (workspace : Workspace) (edits : List Edit) :
    (workspace.openDraft.applyAll edits).commit = workspace.applyAll edits := by
  obtain ⟨after, hafter, hedits⟩ := applyAll_drafted workspace {} edits
  rw [openDraft, hafter, commit, pending, hedits]
  rfl

/-- A draft that is discarded leaves what lies under it as it was. -/
theorem discard_applyAll_openDraft (workspace : Workspace) (edits : List Edit) :
    (workspace.openDraft.applyAll edits).discard = workspace := by
  obtain ⟨after, hafter, _⟩ := applyAll_drafted workspace {} edits
  rw [openDraft, hafter]
  rfl

/-! ## The API that a workspace stands for -/

/-- The API once the changes of all drafts are made, the lowest draft first. -/
def settled : Workspace → Api
  | .direct api => api
  | .drafted under draft => under.settled.applyAll draft.edits

@[simp]
theorem settled_direct (api : Api) : (direct api).settled = api := rfl

@[simp]
theorem settled_openDraft (workspace : Workspace) : workspace.openDraft.settled = workspace.settled := rfl

@[simp]
theorem settled_apply (workspace : Workspace) (edit : Edit) :
    (workspace.apply edit).settled = workspace.settled.apply edit := by
  cases workspace with
  | direct api => rfl
  | drafted under draft => rw [apply, settled, record_edits, Api.applyAll_append]; rfl

@[simp]
theorem settled_applyAll (workspace : Workspace) (edits : List Edit) :
    (workspace.applyAll edits).settled = workspace.settled.applyAll edits := by
  induction edits generalizing workspace with
  | nil => rfl
  | cons edit edits ih => rw [applyAll_cons, ih, settled_apply, Api.applyAll_cons]

theorem mutationName_eq_settled (workspace : Workspace) :
    workspace.mutationName = workspace.settled.mutationName := by
  induction workspace with
  | direct api => rfl
  | drafted under draft ih => rw [settled, Api.mutationName_applyAll]; exact ih

@[simp]
theorem mutationName_apply (workspace : Workspace) (edit : Edit) :
    (workspace.apply edit).mutationName = workspace.mutationName := by
  rw [mutationName_eq_settled, settled_apply, Api.mutationName_apply, ← mutationName_eq_settled]

end Workspace

/-! ## What a change writes -/

/-- The type that a change writes and the name that it stands under afterwards. Appending to the
mutation root writes the root that is shown with the fields at its end, or a new one of the fields. -/
def Edit.typeWritten (mutationName : String) (shown : String → Option TypeDefinition) :
    Edit → Option (String × TypeDefinition)
  | .type definition => some (definition.name, definition)
  | .input definition => some (definition.name, .input definition)
  | .mutations fields =>
    let root := ((shown mutationName).bind TypeDefinition.object?).getD (.plain mutationName [])
    some (mutationName, .object (root.addFields fields))
  | .resource _ _ => none
  | .deployment _ _ => none

/-- The resource that a change writes and its logical id. -/
def Edit.resourceWritten : Edit → Option (String × Resource)
  | .resource id value => some (id, value)
  | _ => none

/-- What is shown under a name once a value is written, unless it is written under another name. -/
def shownAfter {α : Type} (written : Option (String × α)) (shown : Option α) (name : String) :
    Option α :=
  match written with
  | some (key, value) => if key = name then some value else shown
  | none => shown

theorem Schema.get?_put (schema : Schema) (type : TypeDefinition) (name : String) :
    (schema.put type).get? name = if type.name = name then some type else schema.get? name :=
  Entries.get?_put _ _ _ _

theorem Schema.get?_addMutations (schema : Schema) (fields : List Field) (name : String) :
    (schema.addMutations fields).get? name =
      shownAfter ((Edit.mutations fields).typeWritten schema.mutationName schema.get?)
        (schema.get? name) name := by
  simp only [Schema.addMutations, Edit.typeWritten, shownAfter]
  cases hroot : schema.get? schema.mutationName with
  | none => exact Entries.get?_put _ _ _ _
  | some root =>
    cases root with
    | object root => exact Entries.get?_put _ _ _ _
    | _ => exact Entries.get?_put _ _ _ _

theorem Api.type?_apply (api : Api) (edit : Edit) (name : String) :
    (api.apply edit).type? name =
      shownAfter (edit.typeWritten api.mutationName api.type?) (api.type? name) name := by
  cases edit with
  | type type => exact Schema.get?_put _ _ _
  | input input => exact Schema.get?_put _ _ _
  | mutations fields => exact Schema.get?_addMutations _ _ _
  | resource id resource => rfl
  | deployment stack id => rfl

theorem Api.resource?_apply (api : Api) (edit : Edit) (id : String) :
    (api.apply edit).resource? id = shownAfter edit.resourceWritten (api.resource? id) id := by
  cases edit with
  | resource key resource => exact Entries.get?_put _ _ _ _
  | _ => rfl

theorem Entries.get?_put_orElse {α : Type} (key : String) (value : α) (entries : Entries α)
    (under : Option α) (name : String) :
    ((entries.put key value).get? name <|> under) =
      shownAfter (some (key, value)) (entries.get? name <|> under) name := by
  rw [Entries.get?_put, shownAfter]
  split
  · rfl
  · rfl

theorem Workspace.type?_apply (workspace : Workspace) (edit : Edit) (name : String) :
    (workspace.apply edit).type? name =
      shownAfter (edit.typeWritten workspace.mutationName (workspace.type? ·))
        (workspace.type? name) name := by
  cases workspace with
  | direct api => exact Api.type?_apply api edit name
  | drafted under draft =>
    cases edit with
    | type type => exact Entries.get?_put_orElse _ _ _ _ _
    | input input => exact Entries.get?_put_orElse _ _ _ _ _
    | mutations fields => exact Entries.get?_put_orElse _ _ _ _ _
    | resource id resource => rfl
    | deployment stack id => rfl

theorem Workspace.resource?_apply (workspace : Workspace) (edit : Edit) (id : String) :
    (workspace.apply edit).resource? id =
      shownAfter edit.resourceWritten (workspace.resource? id) id := by
  cases workspace with
  | direct api => exact Api.resource?_apply api edit id
  | drafted under draft =>
    cases edit with
    | resource key resource => exact Entries.get?_put_orElse _ _ _ _ _
    | _ => rfl

/-! ## Agreement -/

/-- Every read of the workspace gives what it gives on the API. -/
structure Workspace.Shows (workspace : Workspace) (api : Api) : Prop where
  type? (name : String) : workspace.type? name = api.type? name
  resource? (id : String) : workspace.resource? id = api.resource? id
  mutationName : workspace.mutationName = api.mutationName

namespace Workspace

theorem shows_direct (api : Api) : (direct api).Shows api :=
  ⟨fun _ => rfl, fun _ => rfl, rfl⟩

theorem Shows.openDraft {workspace : Workspace} {api : Api} (h : workspace.Shows api) :
    workspace.openDraft.Shows api :=
  ⟨fun name => h.type? name, fun id => h.resource? id, h.mutationName⟩

/-- The step: a change shows in the workspace as it shows in the API. -/
theorem Shows.apply {workspace : Workspace} {api : Api} (h : workspace.Shows api) (edit : Edit) :
    (workspace.apply edit).Shows (api.apply edit) where
  type? name := by
    have hshown : (fun name => workspace.type? name) = api.type? := funext h.type?
    rw [type?_apply, Api.type?_apply, h.mutationName, h.type?, hshown]
  resource? id := by rw [resource?_apply, Api.resource?_apply, h.resource?]
  mutationName := by rw [mutationName_apply, Api.mutationName_apply, h.mutationName]

/-- Every draft of the workspace shows the API that it stands for. -/
def Faithful : Workspace → Prop
  | .direct _ => True
  | .drafted under draft => under.Faithful ∧ (drafted under draft).Shows (drafted under draft).settled

theorem faithful_direct (api : Api) : (direct api).Faithful := trivial

theorem Faithful.shows {workspace : Workspace} (h : workspace.Faithful) :
    workspace.Shows workspace.settled := by
  cases workspace with
  | direct api => exact shows_direct api
  | drafted under draft => exact h.2

theorem Faithful.openDraft {workspace : Workspace} (h : workspace.Faithful) :
    workspace.openDraft.Faithful :=
  ⟨h, h.shows.openDraft⟩

theorem Faithful.apply {workspace : Workspace} (h : workspace.Faithful) (edit : Edit) :
    (workspace.apply edit).Faithful := by
  cases workspace with
  | direct api => trivial
  | drafted under draft =>
    have hshows := h.shows.apply edit
    rw [← settled_apply] at hshows
    exact ⟨h.1, hshows⟩

theorem Faithful.applyAll {workspace : Workspace} (h : workspace.Faithful) (edits : List Edit) :
    (workspace.applyAll edits).Faithful := by
  induction edits generalizing workspace with
  | nil => exact h
  | cons edit edits ih => exact ih (h.apply edit)

theorem Faithful.discard {workspace : Workspace} (h : workspace.Faithful) :
    workspace.discard.Faithful := by
  cases workspace with
  | direct api => trivial
  | drafted under draft => exact h.1

theorem Faithful.commit {workspace : Workspace} (h : workspace.Faithful) :
    workspace.commit.Faithful :=
  h.discard.applyAll workspace.pending

end Workspace

end AuditFields
