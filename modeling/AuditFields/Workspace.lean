import AuditFields.Api
import AuditFields.Task

/-!
# Workspaces

Where changes to an API are made: on the API itself, or in a draft over another workspace. A draft
keeps the changes in order and shows the types and resources as they will be; what lies under it
gets the changes when the draft is committed, and nothing when it is discarded. Drafts nest.
-/

namespace AuditFields

open Schema

/-- Changes not yet made, with the types and resources that they put. -/
structure Draft where
  edits : List Edit := []
  types : Entries TypeDefinition := []
  resources : Entries Resource := []

/-- An API, or a draft over another workspace. -/
inductive Workspace where
  | direct (api : Api)
  | drafted (under : Workspace) (draft : Draft)

namespace Workspace

/-! ## What a workspace shows -/

def api : Workspace → Api
  | .direct api => api
  | .drafted under _ => under.api

def type? (name : String) : Workspace → Option TypeDefinition
  | .direct api => api.type? name
  | .drafted under draft => draft.types.get? name <|> under.type? name

def resource? (id : String) : Workspace → Option Resource
  | .direct api => api.resource? id
  | .drafted under draft => draft.resources.get? id <|> under.resource? id

/-- The name of the type that holds the mutations, which no change alters. -/
def mutationName (workspace : Workspace) : String :=
  workspace.api.mutationName

/-! ## Changes -/

/-- The object type of the name, or one without fields if there is none. -/
def objectOrNew (workspace : Workspace) (name : String) : ObjectType :=
  ((workspace.type? name).bind TypeDefinition.object?).getD (.plain name [])

def record (under : Workspace) (draft : Draft) (edit : Edit) : Draft :=
  let draft := { draft with edits := draft.edits ++ [edit] }
  match edit with
  | .type type => { draft with types := draft.types.put type.name type }
  | .resource id resource => { draft with resources := draft.resources.put id resource }
  | .mutations fields =>
    let name := under.mutationName
    let root := (objectOrNew (.drafted under draft) name).addFields fields
    { draft with types := draft.types.put name (.object root) }
  | .input input => { draft with types := draft.types.put input.name (.input input) }
  | .deployment _ _ => draft

/-- The workspace after a change. -/
def apply (workspace : Workspace) (edit : Edit) : Workspace :=
  match workspace with
  | .direct api => .direct (api.apply edit)
  | .drafted under draft => .drafted under (record under draft edit)

/-! ## Drafts -/

def openDraft (workspace : Workspace) : Workspace :=
  .drafted workspace {}

def pending : Workspace → List Edit
  | .direct _ => []
  | .drafted _ draft => draft.edits

/-- The workspace under the uppermost draft, without its changes. -/
def discard : Workspace → Workspace
  | .direct api => .direct api
  | .drafted under _ => under

/-- The workspace under the uppermost draft after its changes, in order. -/
def commit (workspace : Workspace) : Workspace :=
  workspace.pending.foldl apply workspace.discard

@[simp]
theorem discard_openDraft (workspace : Workspace) : workspace.openDraft.discard = workspace := rfl

@[simp]
theorem pending_openDraft (workspace : Workspace) : workspace.openDraft.pending = [] := rfl

@[simp]
theorem commit_openDraft (workspace : Workspace) : workspace.openDraft.commit = workspace := rfl

/-! ## Tasks -/

def edit (edit : Edit) : Task Workspace Unit :=
  Task.update (·.apply edit)

/-- Applies the uppermost draft and reports how many changes it holds. -/
def commitDraft : Task Workspace Unit := do
  Task.report (.committing (← Task.state).pending.length)
  Task.update commit

/-- Does the work in a draft: all of its changes are made if it succeeds, and none if it fails. -/
def inDraft {α : Type} (work : Task Workspace α) : Task Workspace α := do
  Task.update openDraft
  let result ←
    tryCatch work fun failure => do
      Task.update discard
      throw failure
  commitDraft
  return result

/-- Work that succeeds in a draft makes its changes, after all that it reported. -/
theorem inDraft_of_ok {α : Type} {work : Task Workspace α} {progress after : Progress Workspace}
    {x : α} (h : work.run { progress with state := progress.state.openDraft } = (.ok x, after)) :
    (inDraft work).run progress =
      (.ok x, { state := after.state.commit
                events := after.events ++ [.committing after.state.pending.length] }) := by
  rw [inDraft, Task.run_bind_of_ok (Task.run_update _ _),
    Task.run_bind_of_ok (Task.run_tryCatch_of_ok h)]
  rfl

/-- Work that fails in a draft makes no change, but what it reported stays. -/
theorem inDraft_of_error {α : Type} {work : Task Workspace α}
    {progress after : Progress Workspace} {failure : Failure}
    (h : work.run { progress with state := progress.state.openDraft } = (.error failure, after)) :
    (inDraft work).run progress =
      (.error failure, { after with state := after.state.discard }) := by
  have undone : (tryCatch work fun failure => do
        Task.update discard
        throw failure).run { progress with state := progress.state.openDraft } =
      (.error failure, { after with state := after.state.discard }) :=
    (Task.run_tryCatch_of_error h).trans rfl
  rw [inDraft, Task.run_bind_of_ok (Task.run_update _ _), Task.run_bind_of_error undone]

end Workspace

end AuditFields
