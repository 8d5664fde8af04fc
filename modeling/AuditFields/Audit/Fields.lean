import AuditFields.Settings
import AuditFields.Workspace

/-!
# The declared bookkeeping fields

A bookkeeping field that a type declares has to have the expected type, and one that it does not
declare is added. Bookkeeping fields may share a name; the first of them that is missing is added,
and the others are checked against it.
-/

namespace AuditFields.Audit

open Schema

def addedField (settings : Settings) (field : AuditField) : Field :=
  .plain (settings.name field) [] (field.type settings.identityRequired)

def broken (settings : Settings) (type : String) (field : AuditField) : Failure :=
  .contract type field (settings.name field) (field.type settings.identityRequired)

/-- Checks a bookkeeping field against the declared fields and those already added, and adds it if
it is missing. -/
def checkField (settings : Settings) (object : ObjectType) (type : String) (added : List Field)
    (field : AuditField) : Except Failure (List Field) :=
  let name := settings.name field
  match object.field? name <|> added.find? (·.name == name) with
  | some declared =>
    if field.accepts settings.identityRequired declared.type then .ok added
    else .error (broken settings type field)
  | none =>
    if field.isAdded then .ok (added ++ [addedField settings field])
    else .error (broken settings type field)

/-- The fields that a type lacks, unless it declares one against the contract. -/
def missingFields (settings : Settings) (object : ObjectType) (type : String) :
    Except Failure (List Field) :=
  AuditField.all.foldlM (checkField settings object type) []

/-- Checks the bookkeeping fields of a type and adds the missing ones. -/
def completeFields (settings : Settings) (type : String) : Task Workspace Unit := do
  match ((← Task.state).type? type).bind TypeDefinition.object? with
  | none => return ()
  | some object =>
    match missingFields settings object type with
    | .error failure => throw failure
    | .ok [] => return ()
    | .ok added =>
      Task.report (.adding (added.map (·.name)) type)
      Workspace.edit (.type (.object (object.addFields added)))

end AuditFields.Audit
