import AuditFields.Schema.Basic
import AuditFields.Stack.Basic

/-!
# APIs

A schema with the stack that carries it out, and for some resources the nested stack that they are
deployed with. The changes that can be made to an API are values, so that they can be kept and
applied later.
-/

namespace AuditFields

open Schema

/-- A schema with its stack. -/
structure Api where
  schema : Schema := {}
  stack : Stack := {}
  /-- The nested stack that a resource is deployed with, by the resource. -/
  stackMapping : Entries String := []
  deriving DecidableEq

/-- A change to an API: a type put in the place of the one of its name, a resource in that of its
logical id, fields at the end of the mutation root, an input in the place of the type of its name, or
the nested stack that a resource is deployed with. -/
inductive Edit where
  | type (type : TypeDefinition)
  | resource (id : String) (resource : Resource)
  | mutations (fields : List Field)
  | input (input : InputType)
  | deployment (stack id : String)
  deriving DecidableEq

namespace Api

def type? (api : Api) (name : String) : Option TypeDefinition :=
  api.schema.get? name

def resource? (api : Api) (id : String) : Option Resource :=
  api.stack.resources.get? id

def mutationName (api : Api) : String :=
  api.schema.mutationName

/-- The API after a change. -/
def apply (api : Api) : Edit → Api
  | .type type => { api with schema := api.schema.put type }
  | .resource id resource =>
    { api with stack := { api.stack with resources := api.stack.resources.put id resource } }
  | .mutations fields => { api with schema := api.schema.addMutations fields }
  | .input input => { api with schema := api.schema.put (.input input) }
  | .deployment stack id => { api with stackMapping := api.stackMapping.put id stack }

end Api

end AuditFields
