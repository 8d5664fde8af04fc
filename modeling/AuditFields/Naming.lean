/-!
# Names

The names that a schema and its stack agree on: the directives, the built-in types, and the names of
what is generated for a model type, which hold the name of the type between two fixed parts.
-/

namespace AuditFields

namespace Naming

/-! ## Directives and built-in types -/

def auditDirective : String := "objectmeta"

def modelDirective : String := "model"

def authDirective : String := "auth"

/-- The directives that a type with bookkeeping fields has to have, in the order of the check. -/
def requiredDirectives : List String := [modelDirective, authDirective]

def idArgument : String := "id"

def idType : String := "ID"

def floatType : String := "Float"

def booleanType : String := "Boolean"

end Naming

/-! ## What is generated for a type -/

/-- Something that is generated for a model type. -/
inductive Artifact where
  | createResolver
  | updateResolver
  | createInput
  | updateInput
  | dataSource
  | softDeleteMutation
  | softDeleteInput
  | softDeleteResolver
  deriving DecidableEq, Repr

namespace Artifact

def all : List Artifact :=
  [.createResolver, .updateResolver, .createInput, .updateInput, .dataSource,
   .softDeleteMutation, .softDeleteInput, .softDeleteResolver]

theorem mem_all (artifact : Artifact) : artifact ∈ all := by
  cases artifact <;> decide

def front : Artifact → String
  | .createResolver => "Create"
  | .updateResolver => "Update"
  | .createInput => "Create"
  | .updateInput => "Update"
  | .dataSource => ""
  | .softDeleteMutation => "softDelete"
  | .softDeleteInput => "SoftDelete"
  | .softDeleteResolver => "SoftDelete"

def back : Artifact → String
  | .createResolver => "Resolver"
  | .updateResolver => "Resolver"
  | .createInput => "Input"
  | .updateInput => "Input"
  | .dataSource => "DataSource"
  | .softDeleteMutation => ""
  | .softDeleteInput => "Input"
  | .softDeleteResolver => "Resolver"

def nameFor (artifact : Artifact) (type : String) : String :=
  artifact.front ++ type ++ artifact.back

theorem nameFor_inj {artifact : Artifact} {type other : String}
    (h : artifact.nameFor type = artifact.nameFor other) : type = other :=
  (String.append_right_inj artifact.front).1 ((String.append_left_inj artifact.back).1 h)

end Artifact

end AuditFields
