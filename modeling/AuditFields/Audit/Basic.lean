import AuditFields.Audit.Fields
import AuditFields.Audit.Deletion
import AuditFields.Audit.Inputs
import AuditFields.Audit.Templates

/-!
# Auditing types

What is done for an annotated type, in this order: the templates are put in front of the create and
update requests, the soft delete mutation is added, the bookkeeping fields are taken out of the
inputs, and the declared ones are checked and the missing ones added. The work on a type is done in
a draft, and so is the work on all annotated types of a schema: it is made altogether or not at all.
-/

namespace AuditFields.Audit

open Schema

/-- Fails unless the type has the directives that go with the annotation. -/
def requireDirectives {σ : Type} (object : ObjectType) : Task σ Unit :=
  match Naming.requiredDirectives.find? fun name => !object.hasDirective name with
  | some name => throw (.missingDirective name)
  | none => return ()

/-- The steps for a type with its settings. -/
def steps (config : Config) (settings : Settings) (type : String) : Task Workspace Unit := do
  let create := templateOnCreate config settings
  addToRequest (Artifact.createResolver.nameFor type) create
  addToRequest (Artifact.updateResolver.nameFor type) (templateOnUpdate config settings)
  if settings.softDelete then addDeletion config type create
  hideInInput settings type .create
  hideInInput settings type .update
  completeFields settings type

/-- Does what the annotation of a type asks for. Nothing is changed unless every step succeeds. -/
def auditType (config : Config) (object : ObjectType) (directive : Directive) :
    Task Workspace Unit := do
  requireDirectives object
  let settings ← Settings.ofDirective directive
  Workspace.inDraft (steps config settings object.name)

/-- The annotated object types of a schema with their first annotation. -/
def annotated (schema : Schema) : List (ObjectType × Directive) :=
  schema.objects.filterMap fun object =>
    (object.directive? Naming.auditDirective).map (object, ·)

/-- Does what the annotation of a type asks for, and reports how it went. -/
def auditReported (config : Config) (target : ObjectType × Directive) : Task Workspace Unit := do
  tryCatch (auditType config target.1 target.2) fun failure => do
    Task.report (.notTransformed target.1.name failure.message)
    throw failure
  Task.report (.transformed target.1.name)

/-- Does what the annotations of a schema ask for, in the order of the types, and gives the names of
the annotated types. Nothing is changed unless all of it succeeds. -/
def auditAll (config : Config) : Task Workspace (List String) := do
  let targets := annotated (← Task.state).api.schema
  if targets.isEmpty then Task.report .noneAnnotated
  Workspace.inDraft (targets.forM (auditReported config))
  return targets.map (·.1.name)

end AuditFields.Audit
