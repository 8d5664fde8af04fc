import AuditFields.Json.Basic

/-!
# Stacks

The resources of an API as a stack declares them. Resolvers are read into their parts, because their
mapping templates are what changes; any other resource, and every part of a resolver that has
no meaning here, is kept as the JSON value that it is.
-/

namespace AuditFields

/-- A resolver of a field of the API. -/
structure Resolver where
  apiId : Json
  dataSourceName : Option Json
  typeName : String
  fieldName : String
  requestTemplate : Option String
  responseTemplate : Option String
  /-- The properties without a meaning here. -/
  otherProperties : Entries Json := []
  dependsOn : Option Json := none
  /-- The attributes without a meaning here. -/
  otherAttributes : Entries Json := []
  deriving DecidableEq

/-- A resource of a stack. -/
inductive Resource where
  | resolver (resolver : Resolver)
  | other (value : Json)
  deriving DecidableEq

def Resource.resolver? : Resource → Option Resolver
  | .resolver r => some r
  | .other _ => none

/-- A stack: its resources by logical id, and its other parts. -/
structure Stack where
  resources : Entries Resource := []
  others : Entries Json := []
  deriving DecidableEq

def attributeOf (logicalId name : String) : Json :=
  .object [("Fn::GetAtt", .array [.string logicalId, .string name])]

/-! ## Keys -/

namespace Resolver

def resourceType : String := "AWS::AppSync::Resolver"

def attributeKeys : List String := ["Type", "Properties", "DependsOn"]

def propertyKeys : List String :=
  ["ApiId", "DataSourceName", "TypeName", "FieldName", "RequestMappingTemplate",
   "ResponseMappingTemplate"]

end Resolver

def Stack.resourcesKey : String := "Resources"

/-! ## Writing -/

def memberIfAny (key : String) (value : Option Json) : List (String × Json) :=
  value.toList.map (key, ·)

namespace Resolver

/-- The properties of a resolver as members: those with a meaning first. -/
def propertyMembers (resolver : Resolver) : List (String × Json) :=
  [("ApiId", resolver.apiId)] ++
    memberIfAny "DataSourceName" resolver.dataSourceName ++
    [("TypeName", .string resolver.typeName), ("FieldName", .string resolver.fieldName)] ++
    memberIfAny "RequestMappingTemplate" (resolver.requestTemplate.map .string) ++
    memberIfAny "ResponseMappingTemplate" (resolver.responseTemplate.map .string) ++
    resolver.otherProperties

/-- A resolver as members: those with a meaning first. -/
def members (resolver : Resolver) : List (String × Json) :=
  [("Type", .string resourceType), ("Properties", .object resolver.propertyMembers)] ++
    memberIfAny "DependsOn" resolver.dependsOn ++ resolver.otherAttributes

end Resolver

def Resource.toJson : Resource → Json
  | .resolver r => .object r.members
  | .other value => value

/-- A stack as a JSON value: the resources first. -/
def Stack.toJson (stack : Stack) : Json :=
  .object ((resourcesKey, .object (stack.resources.map fun entry => (entry.1, entry.2.toJson))) ::
    stack.others)

end AuditFields
