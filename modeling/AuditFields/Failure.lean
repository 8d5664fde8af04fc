import AuditFields.AuditField
import AuditFields.Schema.Fault
import AuditFields.Template.Basic

/-!
# Failures

Why an annotated type cannot be given its bookkeeping fields. Each failure holds its cause; the
messages and the classes of failures are functions of it.
-/

namespace AuditFields

open Schema

/-- The kind of value that an argument of the directive takes. -/
inductive ArgumentKind where
  | boolean
  | string
  deriving DecidableEq, Repr

/-- What messages call the kind. -/
def ArgumentKind.render : ArgumentKind → String
  | .boolean => "Boolean"
  | .string => "String"

/-- A generated mutation that takes an input. -/
inductive InputMutation where
  | create
  | update
  deriving DecidableEq, Repr

/-- What messages call the mutation. -/
def InputMutation.render : InputMutation → String
  | .create => "create"
  | .update => "update"

/-- Why the work on an annotated type, or on a document, cannot go on. -/
inductive Failure where
  | missingDirective (name : String)
  | wrongArgument (name : String) (expected : ArgumentKind) (value : Value)
  | emptyInput (fields : List String) (mutation : InputMutation) (type : String)
  /-- A bookkeeping field is declared with another type, or the flag is not declared. -/
  | contract (type : String) (field : AuditField) (name : String) (expected : TypeRef)
  /-- There is no update resolver to build the soft delete mutation from. -/
  | missingResolver (type resource : String)
  | missingRequest (resource : String)
  | document (fault : Fault)
  | refused (refusal : RequestRefusal)
  deriving DecidableEq

namespace Failure

/-- What the owner of a schema has to look at. -/
inductive Category where
  /-- How the annotation, or what is generated with it, is set up. -/
  | configuration
  | contract
  | other
  deriving DecidableEq, Repr

def category : Failure → Category
  | .missingDirective _ => .configuration
  | .wrongArgument .. => .configuration
  | .emptyInput .. => .configuration
  | .contract .. => .contract
  | .missingResolver .. => .configuration
  | .missingRequest _ => .configuration
  | .document _ => .other
  | .refused _ => .other

/-- A name in plain double quotes, as messages show it. -/
def shown (name : String) : String := "\"" ++ name ++ "\""

def message : Failure → String
  | .missingDirective name =>
    "Types annotated with @" ++ Naming.auditDirective ++ " must also be annotated with @" ++
      name ++ "."
  | .wrongArgument name expected value =>
    "Argument " ++ shown name ++ " of @" ++ Naming.auditDirective ++ " must be a " ++
      expected.render ++ ", got " ++ value.kind ++ " " ++ value.render ++ "."
  | .emptyInput fields mutation type =>
    "After stripping away object meta fields " ++ Text.joinWith ", " (fields.map shown) ++
      ", the " ++ mutation.render ++ " input for type " ++ shown type ++
      " cannot be created with 0 fields. Add another field to type " ++ shown type ++
      " to continue."
  | .contract type field name expected =>
    "Type " ++ shown type ++ " requires " ++ field.argument ++ " " ++ shown name ++
      " to be of type " ++ shown expected.render ++ "."
  | .missingResolver type resource =>
    "Type " ++ shown type ++ " enables soft delete, but its update resolver " ++ shown resource ++
      " does not exist. Make sure the type is annotated with @" ++ Naming.modelDirective ++
      " and generates an update mutation."
  | .missingRequest resource =>
    "The resolver " ++ shown resource ++ " has no inline request mapping template to augment."
  | .document fault => "Could not parse the schema: " ++ fault.message
  | .refused refusal => refusal.message

end Failure

end AuditFields
