import AuditFields.Template.Printer
import AuditFields.Workspace

/-!
# Adding to request templates

A template is put in front of the request template of a generated resolver. A resolver that was not
generated is passed over; one without a request template of its own cannot be added to.
-/

namespace AuditFields.Audit

/-- The resolver with a template in front of its request template. -/
def prepend (snippet : RequestTemplate) (request : String) (resolver : Resolver) : Resolver :=
  { resolver with requestTemplate := some (snippet.render ++ "\n\n" ++ request) }

def resolverWithRequest (id : String) (resource : Resource) :
    Except Failure (Resolver × String) :=
  match resource with
  | .other _ => .error (.missingRequest id)
  | .resolver resolver =>
    match resolver.requestTemplate with
    | none => .error (.missingRequest id)
    | some request => .ok (resolver, request)

/-- Puts a template in front of the request template of a resolver, if there is the resolver. -/
def addToRequest (id : String) (snippet : RequestTemplate) : Task Workspace Unit := do
  match (← Task.state).resource? id with
  | none => Task.report (.noResolver id)
  | some resource =>
    match resolverWithRequest id resource with
    | .error failure => throw failure
    | .ok (resolver, request) =>
      Workspace.edit (.resource id (.resolver (prepend snippet request resolver)))
      Task.report (.augmented id)

end AuditFields.Audit
