import AuditFields.Naming
import AuditFields.Text.Blank

/-!
# Events

What is reported while annotated types are worked on: each event has a level, the part of the
library that reports it, and a message.
-/

namespace AuditFields

/-- How much an event matters, least first. -/
inductive Level where
  | trace
  | debug
  | info
  | warn
  | error
  deriving DecidableEq, Repr

/-- The name of a level. -/
def Level.render : Level → String
  | .trace => "TRACE"
  | .debug => "DEBUG"
  | .info => "INFO"
  | .warn => "WARN"
  | .error => "ERROR"

def Level.rank : Level → Nat
  | .trace => 0
  | .debug => 1
  | .info => 2
  | .warn => 3
  | .error => 4

/-- The part of the library that reports an event. -/
inductive Component where
  | directive
  | staging
  | transformer
  | fields
  | inputs
  | resolvers
  | softDelete
  deriving DecidableEq, Repr

/-- Something that is reported. -/
inductive Event where
  | unknownArgument (name : String)
  | committing (count : Nat)
  | noResolver (resource : String)
  | augmented (resource : String)
  | inputKept (input : String)
  | softDeleteAdded (resolver type : String)
  | stripped (count : Nat) (input : String)
  | adding (fields : List String) (type : String)
  | notTransformed (type message : String)
  | transformed (type : String)
  | noneAnnotated
  deriving DecidableEq, Repr

namespace Event

def level : Event → Level
  | .unknownArgument _ => .warn
  | .committing _ => .trace
  | .noResolver _ => .warn
  | .augmented _ => .debug
  | .inputKept _ => .debug
  | .softDeleteAdded .. => .debug
  | .stripped .. => .debug
  | .adding .. => .debug
  | .notTransformed .. => .debug
  | .transformed _ => .info
  | .noneAnnotated => .warn

def component : Event → Component
  | .unknownArgument _ => .directive
  | .committing _ => .staging
  | .noResolver _ => .resolvers
  | .augmented _ => .resolvers
  | .inputKept _ => .softDelete
  | .softDeleteAdded .. => .softDelete
  | .stripped .. => .inputs
  | .adding .. => .fields
  | .notTransformed .. => .transformer
  | .transformed _ => .transformer
  | .noneAnnotated => .transformer

/-- A name in backquotes, as messages show it. -/
def shown (name : String) : String := "`" ++ name ++ "`"

def message : Event → String
  | .unknownArgument name =>
    "Ignoring unknown argument " ++ shown name ++ " on @" ++ Naming.auditDirective ++ "."
  | .committing count => "Committing " ++ toString count ++ " staged changes."
  | .noResolver resource => "No resolver " ++ shown resource ++ " to augment, skipping it."
  | .augmented resource =>
    "Augmented the request mapping template of " ++ shown resource ++ "."
  | .inputKept input => shown input ++ " already exists, keeping it."
  | .softDeleteAdded resolver type =>
    "Added the soft delete mutation " ++ shown resolver ++ " for " ++ shown type ++ "."
  | .stripped count input =>
    "Stripped " ++ toString count ++ " meta fields from " ++ shown input ++ "."
  | .adding fields type =>
    "Adding " ++ Text.joinWith ", " fields ++ " to " ++ shown type ++ "."
  | .notTransformed type message => "Could not transform " ++ shown type ++ ": " ++ message
  | .transformed type => "Transformed type " ++ shown type ++ "."
  | .noneAnnotated => "No type is annotated with @" ++ Naming.auditDirective ++ "."

end Event

end AuditFields
