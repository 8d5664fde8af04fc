import AuditFields.Naming
import AuditFields.Schema.TypeRef

/-!
# The bookkeeping fields

The seven fields that are kept for every object of an annotated type: when and by whom it was
created, updated and deleted, and whether it is deleted. Times are numbers, actors are identifiers,
and the flag is a boolean that is always there.
-/

namespace AuditFields

open Schema

/-- A bookkeeping field. -/
inductive AuditField where
  | createdAt
  | createdBy
  | updatedAt
  | updatedBy
  | deleted
  | deletedAt
  | deletedBy
  deriving DecidableEq, Repr

namespace AuditField

def all : List AuditField :=
  [.createdAt, .createdBy, .updatedAt, .updatedBy, .deleted, .deletedAt, .deletedBy]

theorem mem_all (field : AuditField) : field ∈ all := by
  cases field <;> decide

def defaultName : AuditField → String
  | .createdAt => "createdAt"
  | .createdBy => "createdBy"
  | .updatedAt => "updatedAt"
  | .updatedBy => "updatedBy"
  | .deleted => "deleted"
  | .deletedAt => "deletedAt"
  | .deletedBy => "deletedBy"

/-- The argument of the directive that gives the field another name. -/
def argument (field : AuditField) : String :=
  field.defaultName ++ "Field"

def ofArgument? (argument : String) : Option AuditField :=
  all.find? (·.argument == argument)

def ofName? (name : String) : Option AuditField :=
  all.find? (·.defaultName == name)

/-- The kind of value that a field holds. -/
inductive Kind where
  | time
  | actor
  | flag
  deriving DecidableEq, Repr

def kind : AuditField → Kind
  | .createdAt => .time
  | .createdBy => .actor
  | .updatedAt => .time
  | .updatedBy => .actor
  | .deleted => .flag
  | .deletedAt => .time
  | .deletedBy => .actor

/-- The type that a field of the kind has. An actor is always there if an identity is required. -/
def Kind.type (identityRequired : Bool) : Kind → TypeRef
  | .time => .named Naming.floatType
  | .actor => if identityRequired then .nonNull (.named Naming.idType) else .named Naming.idType
  | .flag => .nonNull (.named Naming.booleanType)

/-- The type of a field when it is added, and in messages about a declared one. -/
def type (field : AuditField) (identityRequired : Bool) : TypeRef :=
  field.kind.type identityRequired

/-- Whether a missing field is added to the type; the flag has to be declared. -/
def isAdded (field : AuditField) : Bool :=
  field.kind != .flag

/-- Whether a declared field may have the type. Lists are not looked at: the named type has to be
the expected one, and a type that has to be non-null has to be so on the outside. -/
def accepts (field : AuditField) (identityRequired : Bool) (declared : TypeRef) : Bool :=
  let expected := field.type identityRequired
  declared.baseName == expected.baseName && (!expected.isNonNull || declared.isNonNull)

end AuditField

end AuditFields
