import AuditFields.Schema.Reader

/-!
# Well-formed syntax

Schemas are data, in which any string may stand for a name. In the well-formed ones, which alone can be
written down, names are names, an enum value is none of the words for other values, no non-null mark
follows another, and a directive may be applied somewhere.
-/

namespace AuditFields.Schema

def IsName (name : String) : Prop :=
  Text.isName name.toList = true

instance (name : String) : Decidable (IsName name) :=
  inferInstanceAs (Decidable (_ = _))

/-- The names of values that are no enum values. -/
def valueWords : List String :=
  ["true", "false", "null"]

mutual

def Value.WellFormed : Value → Prop
  | .enum name => IsName name ∧ name ∉ valueWords
  | .list items => Value.ItemsWellFormed items
  | .object members => Value.MembersWellFormed members
  | _ => True

def Value.ItemsWellFormed : List Value → Prop
  | [] => True
  | item :: items => item.WellFormed ∧ Value.ItemsWellFormed items

def Value.MembersWellFormed : List (String × Value) → Prop
  | [] => True
  | (name, value) :: members => (IsName name ∧ value.WellFormed) ∧ Value.MembersWellFormed members

end

def TypeRef.WellFormed : TypeRef → Prop
  | .named name => IsName name
  | .list item => item.WellFormed
  | .nonNull nullable => nullable.isNonNull = false ∧ nullable.WellFormed

structure Directive.WellFormed (directive : Directive) : Prop where
  name : IsName directive.name
  arguments : Value.MembersWellFormed directive.arguments

structure InputField.WellFormed (field : InputField) : Prop where
  name : IsName field.name
  type : field.type.WellFormed
  default : ∀ value ∈ field.default, value.WellFormed
  directives : ∀ directive ∈ field.directives, directive.WellFormed

structure Field.WellFormed (field : Field) : Prop where
  name : IsName field.name
  arguments : ∀ argument ∈ field.arguments, argument.WellFormed
  type : field.type.WellFormed
  directives : ∀ directive ∈ field.directives, directive.WellFormed

structure ScalarType.WellFormed (type : ScalarType) : Prop where
  name : IsName type.name
  directives : ∀ directive ∈ type.directives, directive.WellFormed

structure ObjectType.WellFormed (type : ObjectType) : Prop where
  name : IsName type.name
  interfaces : ∀ interface ∈ type.interfaces, IsName interface
  directives : ∀ directive ∈ type.directives, directive.WellFormed
  fields : ∀ field ∈ type.fields, field.WellFormed

structure UnionType.WellFormed (type : UnionType) : Prop where
  name : IsName type.name
  directives : ∀ directive ∈ type.directives, directive.WellFormed
  members : ∀ member ∈ type.members, IsName member

structure EnumValue.WellFormed (value : EnumValue) : Prop where
  name : IsName value.name
  notWord : value.name ∉ valueWords
  directives : ∀ directive ∈ value.directives, directive.WellFormed

structure EnumType.WellFormed (type : EnumType) : Prop where
  name : IsName type.name
  directives : ∀ directive ∈ type.directives, directive.WellFormed
  values : ∀ value ∈ type.values, value.WellFormed

structure InputType.WellFormed (type : InputType) : Prop where
  name : IsName type.name
  directives : ∀ directive ∈ type.directives, directive.WellFormed
  fields : ∀ field ∈ type.fields, field.WellFormed

def TypeDefinition.WellFormed : TypeDefinition → Prop
  | .scalar type => type.WellFormed
  | .object type => type.WellFormed
  | .interface type => type.WellFormed
  | .union type => type.WellFormed
  | .enum type => type.WellFormed
  | .input type => type.WellFormed

structure Roots.WellFormed (roots : Roots) : Prop where
  directives : ∀ directive ∈ roots.directives, directive.WellFormed
  query : ∀ name ∈ roots.query, IsName name
  mutation : ∀ name ∈ roots.mutation, IsName name
  subscription : ∀ name ∈ roots.subscription, IsName name

structure DirectiveDefinition.WellFormed (definition : DirectiveDefinition) : Prop where
  name : IsName definition.name
  arguments : ∀ argument ∈ definition.arguments, argument.WellFormed
  locations : definition.locations ≠ []

def Definition.WellFormed : Definition → Prop
  | .roots definition => definition.WellFormed
  | .rootsExtension added => added.WellFormed
  | .directive definition => definition.WellFormed
  | .type definition => definition.WellFormed
  | .extension definition => definition.WellFormed

end AuditFields.Schema

namespace AuditFields

open Schema

namespace Schema

/-- The definitions of a schema in the order in which they are written. -/
def definitions (schema : Schema) : List Definition :=
  schema.roots.toList.map .roots ++ schema.directiveDefinitions.map .directive ++
    schema.types.values.map .type ++ schema.extensions.map .extension

def WellFormed (schema : Schema) : Prop :=
  ∀ definition ∈ schema.definitions, definition.WellFormed

end Schema

end AuditFields
