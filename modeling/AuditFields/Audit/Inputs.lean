import AuditFields.Settings
import AuditFields.Workspace

/-!
# What clients may set

The bookkeeping fields are taken out of the inputs of the create and update mutations, so that no
client can set them. An input has to keep a field.
-/

namespace AuditFields.Audit

open Schema

def withoutAuditFields (settings : Settings) (input : InputType) : InputType :=
  { input with fields := input.fields.filter fun field => !settings.isAuditName field.name }

def inputName (type : String) : InputMutation → String
  | .create => Artifact.createInput.nameFor type
  | .update => Artifact.updateInput.nameFor type

/-- Takes the bookkeeping fields out of the input of a mutation, if there is an input. -/
def hideInInput (settings : Settings) (type : String) (mutation : InputMutation) :
    Task Workspace Unit := do
  let name := inputName type mutation
  match ((← Task.state).type? name).bind TypeDefinition.input? with
  | none => return ()
  | some input =>
    let reduced := withoutAuditFields settings input
    if reduced.fields.isEmpty then throw (.emptyInput settings.names mutation type)
    Task.report (.stripped (input.fields.length - reduced.fields.length) name)
    Workspace.edit (.type (.input reduced))

end AuditFields.Audit
