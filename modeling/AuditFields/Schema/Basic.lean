import AuditFields.Entries
import AuditFields.Schema.TypeRef
import AuditFields.Schema.Value

/-!
# Schemas

A schema document as its definitions: the roots of the operations, the directives, the types by name
in the order of their definition, and the extensions as they stand. The operations that change a
schema put a type in the place of the one of its name, and append fields to the mutation root.
-/

namespace AuditFields.Schema

/-! ## Definitions -/

/-- A directive applied to a definition, with its arguments as written. -/
structure Directive where
  name : String
  arguments : List (String × Value)
  deriving DecidableEq, Inhabited

def Directive.argument? (directive : Directive) (name : String) : Option Value :=
  directive.arguments.lookup name

/-- An argument of a field or directive, or a field of an input type. -/
structure InputField where
  description : Option String
  name : String
  type : TypeRef
  default : Option Value
  directives : List Directive
  deriving DecidableEq, Inhabited

def InputField.plain (name : String) (type : TypeRef) : InputField :=
  ⟨none, name, type, none, []⟩

/-- A field of an object or interface type. -/
structure Field where
  description : Option String
  name : String
  arguments : List InputField
  type : TypeRef
  directives : List Directive
  deriving DecidableEq, Inhabited

/-- A field that has a name, arguments and a type only. -/
def Field.plain (name : String) (arguments : List InputField) (type : TypeRef) : Field :=
  ⟨none, name, arguments, type, []⟩

/-- A scalar type. -/
structure ScalarType where
  description : Option String
  name : String
  directives : List Directive
  deriving DecidableEq

/-- An object or interface type. -/
structure ObjectType where
  description : Option String
  name : String
  interfaces : List String
  directives : List Directive
  fields : List Field
  deriving DecidableEq, Inhabited

namespace ObjectType

def plain (name : String) (fields : List Field) : ObjectType :=
  ⟨none, name, [], [], fields⟩

def field? (object : ObjectType) (name : String) : Option Field :=
  object.fields.find? (·.name == name)

def directive? (object : ObjectType) (name : String) : Option Directive :=
  object.directives.find? (·.name == name)

def hasDirective (object : ObjectType) (name : String) : Bool :=
  (object.directive? name).isSome

def addFields (object : ObjectType) (fields : List Field) : ObjectType :=
  { object with fields := object.fields ++ fields }

end ObjectType

/-- A union type. -/
structure UnionType where
  description : Option String
  name : String
  directives : List Directive
  members : List String
  deriving DecidableEq

/-- A value of an enum type. -/
structure EnumValue where
  description : Option String
  name : String
  directives : List Directive
  deriving DecidableEq

/-- An enum type. -/
structure EnumType where
  description : Option String
  name : String
  directives : List Directive
  values : List EnumValue
  deriving DecidableEq

/-- An input object type. -/
structure InputType where
  description : Option String
  name : String
  directives : List Directive
  fields : List InputField
  deriving DecidableEq

def InputType.plain (name : String) (fields : List InputField) : InputType :=
  ⟨none, name, [], fields⟩

/-- The definition of a type, or what an extension adds to one. -/
inductive TypeDefinition where
  | scalar (type : ScalarType)
  | object (type : ObjectType)
  | interface (type : ObjectType)
  | union (type : UnionType)
  | enum (type : EnumType)
  | input (type : InputType)
  deriving DecidableEq

namespace TypeDefinition

def name : TypeDefinition → String
  | .scalar type => type.name
  | .object type => type.name
  | .interface type => type.name
  | .union type => type.name
  | .enum type => type.name
  | .input type => type.name

def directives : TypeDefinition → List Directive
  | .scalar type => type.directives
  | .object type => type.directives
  | .interface type => type.directives
  | .union type => type.directives
  | .enum type => type.directives
  | .input type => type.directives

def withDescription (description : Option String) : TypeDefinition → TypeDefinition
  | .scalar type => .scalar { type with description }
  | .object type => .object { type with description }
  | .interface type => .interface { type with description }
  | .union type => .union { type with description }
  | .enum type => .enum { type with description }
  | .input type => .input { type with description }

def object? : TypeDefinition → Option ObjectType
  | .object type => some type
  | _ => none

def input? : TypeDefinition → Option InputType
  | .input type => some type
  | _ => none

end TypeDefinition

/-- The operations that have a root type. -/
inductive Operation where
  | query
  | mutation
  | subscription
  deriving DecidableEq, Repr

/-- The definition of the roots, with the directives of the schema. -/
structure Roots where
  directives : List Directive := []
  query : Option String := none
  mutation : Option String := none
  subscription : Option String := none
  deriving DecidableEq

/-- The roots with what an extension adds: its directives, and the root types still missing. -/
def Roots.extend (roots extension : Roots) : Roots where
  directives := roots.directives ++ extension.directives
  query := roots.query <|> extension.query
  mutation := roots.mutation <|> extension.mutation
  subscription := roots.subscription <|> extension.subscription

/-- Where a directive may be applied. -/
inductive Location where
  | query
  | mutation
  | subscription
  | field
  | fragmentDefinition
  | fragmentSpread
  | inlineFragment
  | schema
  | scalar
  | object
  | fieldDefinition
  | argumentDefinition
  | interface
  | union
  | enum
  | enumValue
  | inputObject
  | inputFieldDefinition
  | variableDefinition
  deriving DecidableEq, Repr

namespace Location

def all : List Location :=
  [.query, .mutation, .subscription, .field, .fragmentDefinition, .fragmentSpread, .inlineFragment,
   .schema, .scalar, .object, .fieldDefinition, .argumentDefinition, .interface, .union, .enum,
   .enumValue, .inputObject, .inputFieldDefinition, .variableDefinition]

/-- The name of a location in a document. -/
def render : Location → String
  | .query => "QUERY"
  | .mutation => "MUTATION"
  | .subscription => "SUBSCRIPTION"
  | .field => "FIELD"
  | .fragmentDefinition => "FRAGMENT_DEFINITION"
  | .fragmentSpread => "FRAGMENT_SPREAD"
  | .inlineFragment => "INLINE_FRAGMENT"
  | .schema => "SCHEMA"
  | .scalar => "SCALAR"
  | .object => "OBJECT"
  | .fieldDefinition => "FIELD_DEFINITION"
  | .argumentDefinition => "ARGUMENT_DEFINITION"
  | .interface => "INTERFACE"
  | .union => "UNION"
  | .enum => "ENUM"
  | .enumValue => "ENUM_VALUE"
  | .inputObject => "INPUT_OBJECT"
  | .inputFieldDefinition => "INPUT_FIELD_DEFINITION"
  | .variableDefinition => "VARIABLE_DEFINITION"

def ofName? (name : String) : Option Location :=
  all.find? (·.render == name)

end Location

/-- The definition of a directive. -/
structure DirectiveDefinition where
  name : String
  arguments : List InputField
  repeatable : Bool
  locations : List Location
  deriving DecidableEq

end AuditFields.Schema

namespace AuditFields

open Schema

/-- A schema document. -/
structure Schema where
  roots : Option Roots := none
  directiveDefinitions : List DirectiveDefinition := []
  types : Entries TypeDefinition := []
  extensions : List TypeDefinition := []
  deriving DecidableEq

namespace Schema

def get? (schema : Schema) (name : String) : Option TypeDefinition :=
  schema.types.get? name

/-- The schema with the type in the place of the one of its name, or as its last type. -/
def put (schema : Schema) (type : TypeDefinition) : Schema :=
  { schema with types := schema.types.put type.name type }

def objects (schema : Schema) : List ObjectType :=
  schema.types.values.filterMap TypeDefinition.object?

def defaultMutationName : String := "Mutation"

def mutationName (schema : Schema) : String :=
  (schema.roots.bind (·.mutation)).getD defaultMutationName

/-- The schema with further fields at the end of its mutation root. If the root is no object type it
becomes one that has these fields alone, and a definition of the roots that names no mutation root
comes to name it. -/
def addMutations (schema : Schema) (fields : List Field) : Schema :=
  let name := schema.mutationName
  match schema.get? name with
  | some (.object root) =>
    { schema with types := schema.types.put name (.object (root.addFields fields)) }
  | _ =>
    { schema.put (.object (.plain name fields)) with
      roots := schema.roots.map fun roots =>
        { roots with mutation := some (roots.mutation.getD name) } }

end Schema

end AuditFields
