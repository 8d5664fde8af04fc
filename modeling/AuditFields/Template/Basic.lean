import AuditFields.Json.Basic

/-!
# Request mapping templates

A block of statements that runs on a request before it reaches the data source. The statements find
out who makes the request, refuse it when nobody does, and write fields of its input.
-/

namespace AuditFields

/-- A value that a template writes. -/
inductive Operand where
  | now
  | identity
  | bool (value : Bool)
  deriving DecidableEq, Repr

/-- A statement of a template. -/
inductive Statement where
  /-- Takes the identity from the first claim that is there, or else from the fallback. -/
  | identify (claims : List String) (fallback : Option String)
  | demandIdentity
  | put (field : String) (value : Operand)
  | ifTrue (field : String) (body : List Statement)
  deriving Inhabited

/-- A named block of statements. -/
structure RequestTemplate where
  block : String
  statements : List Statement
  deriving Inhabited

/-- What a template sees of a request. -/
structure Request where
  claims : Entries Json := []
  input : Entries Json := []
  /-- Milliseconds since the epoch. -/
  now : Int := 0
  deriving DecidableEq

/-- Why a template refuses a request. -/
inductive RequestRefusal where
  /-- The identity is required, but it is null or empty. -/
  | noIdentity
  | identityNotSought
  deriving DecidableEq, Repr

def RequestRefusal.message : RequestRefusal → String
  | .noIdentity => "Invalid identity."
  | .identityNotSought => "The identity value is read before being resolved."

end AuditFields
