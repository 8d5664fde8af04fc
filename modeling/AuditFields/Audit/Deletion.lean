import AuditFields.Audit.Request
import AuditFields.Config

/-!
# The soft delete mutation

A mutation that marks an object as deleted, with an input of its own. Its resolver runs the create
template and then the request template of the update resolver as it stands by then.
-/

namespace AuditFields.Audit

open Schema

def idArgument : InputField :=
  .plain Naming.idArgument (.nonNull (.named Naming.idType))

def deletionInput (type : String) : InputType :=
  .plain (Artifact.softDeleteInput.nameFor type) [idArgument]

def deletionMutation (type : String) : Field :=
  .plain (Artifact.softDeleteMutation.nameFor type) [idArgument] (.named type)

/-- The resolver of the soft delete mutation, given the name of the mutation root and the update
resolver with its request template. -/
def deletionResolver (config : Config) (type : String) (snippet : RequestTemplate)
    (mutationName : String) (update : Resolver) (request : String) : Resolver where
  apiId := attributeOf config.apiLogicalId "ApiId"
  dataSourceName := some (attributeOf (Artifact.dataSource.nameFor type) "Name")
  typeName := mutationName
  fieldName := Artifact.softDeleteMutation.nameFor type
  requestTemplate := some (snippet.render ++ "\n" ++ request)
  responseTemplate := update.responseTemplate

def updateResolver (type : String) : Option Resource → Except Failure (Resolver × String)
  | none => .error (.missingResolver type (Artifact.updateResolver.nameFor type))
  | some resource => resolverWithRequest (Artifact.updateResolver.nameFor type) resource

/-- Adds the input of the soft delete mutation unless there is a type of its name. -/
def addDeletionInput (type : String) : Task Workspace Unit := do
  if ((← Task.state).type? (Artifact.softDeleteInput.nameFor type)).isNone then
    Workspace.edit (.input (deletionInput type))
  else Task.report (.inputKept (Artifact.softDeleteInput.nameFor type))

/-- Adds the soft delete mutation of a type with its input and its resolver. -/
def addDeletion (config : Config) (type : String) (snippet : RequestTemplate) :
    Task Workspace Unit := do
  let update := (← Task.state).resource? (Artifact.updateResolver.nameFor type)
  match updateResolver type update with
  | .error failure => throw failure
  | .ok (update, request) =>
    addDeletionInput type
    Workspace.edit (.mutations [deletionMutation type])
    let id := Artifact.softDeleteResolver.nameFor type
    let mutationName := (← Task.state).mutationName
    Workspace.edit (.resource id
      (.resolver (deletionResolver config type snippet mutationName update request)))
    Workspace.edit (.deployment type id)
    Task.report (.softDeleteAdded id type)

end AuditFields.Audit
