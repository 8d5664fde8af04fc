import AuditFields.Json.Reader
import AuditFields.Stack.Basic

/-!
# Reading stacks

A resource is read as a resolver when it has the type of one, everything a resolver needs, and no
part with a meaning twice; all else is kept as it is. Of a stack only the place of its resources has
a shape, which is checked while the text is read.
-/

namespace AuditFields

/-! ## Members by key -/

/-- The only value of a key, nothing if there is none, and no result if there are several. -/
def uniqueMember? (members : List (String × Json)) (key : String) : Option (Option Json) :=
  match members.filter (·.1 == key) with
  | [] => some none
  | [member] => some (some member.2)
  | _ => none

/-- The members of other keys, each once. -/
def otherMembers (keys : List String) (members : List (String × Json)) : Entries Json :=
  Entries.ofPairs (Json.settledMembers (members.filter fun member => !keys.contains member.1))

def nonNull? : Option Json → Option Json
  | some .null => none
  | other => other

/-- A string that may be absent: no result if there is a value that is no string. -/
def optionalString? : Option Json → Option (Option String)
  | none => some none
  | some .null => some none
  | some (.string s) => some (some s)
  | _ => none

/-! ## Resources -/

namespace Resolver

/-- Whether a value is the type of resolvers: the name itself, or an object of which the name is the
only key, with the null value. -/
def isResourceType : Json → Bool
  | .string name => name == resourceType
  | .object [(name, .null)] => name == resourceType
  | _ => false

def ofMembers? (members : List (String × Json)) : Option Resolver := do
  let type ← (← uniqueMember? members "Type")
  guard (isResourceType type)
  let .object properties ← (← uniqueMember? members "Properties") | none
  let dependsOn ← uniqueMember? members "DependsOn"
  let apiId ← (← uniqueMember? properties "ApiId")
  let dataSourceName ← uniqueMember? properties "DataSourceName"
  let typeName ← (← (← uniqueMember? properties "TypeName")).string?
  let fieldName ← (← (← uniqueMember? properties "FieldName")).string?
  let request ← optionalString? (← uniqueMember? properties "RequestMappingTemplate")
  let response ← optionalString? (← uniqueMember? properties "ResponseMappingTemplate")
  return {
    apiId := apiId.settled
    dataSourceName := (nonNull? dataSourceName).map Json.settled
    typeName := typeName
    fieldName := fieldName
    requestTemplate := request
    responseTemplate := response
    otherProperties := otherMembers propertyKeys properties
    dependsOn := (nonNull? dependsOn).map Json.settled
    otherAttributes := otherMembers attributeKeys members }

end Resolver

/-- The resource that a value denotes, which may hold members twice. -/
def Resource.ofJson (value : Json) : Resource :=
  match value with
  | .object members =>
    match Resolver.ofMembers? members with
    | some r => .resolver r
    | none => .other value.settled
  | _ => .other value.settled

/-- The resource that a text denotes. -/
def Resource.ofText (text : String) : Except Json.Refusal Resource :=
  (Json.ofTextRaw text).map Resource.ofJson

/-! ## Stacks -/

namespace Stack

open Json (Reader)

/-- A stack while it is read: its resources once they have come. -/
structure Parts where
  resources : Option (Entries Resource) := none
  others : Entries Json := []

def resourceMember (id : String) (resources : Entries Resource) : Reader (Entries Resource) := do
  Reader.expect ':'
  return resources.put id (Resource.ofJson (← Reader.value (Json.maxDepth - 2)))

/-- Takes a part of a stack after its key. The resources may come once only. -/
def member (key : String) (stack : Parts) : Reader Parts := do
  if key = resourcesKey then
    if stack.resources.isSome then
      throw (.wrongShape ("duplicate field `" ++ resourcesKey ++ "`"))
    Reader.expect ':'
    return { stack with resources := some (← Reader.object "a map" resourceMember []) }
  else
    Reader.expect ':'
    let value ← Reader.value (Json.maxDepth - 1)
    return { stack with others := stack.others.put key value.settled }

/-- The stack that a text denotes. Without resources it has none. -/
def ofText (text : String) : Except Json.Refusal Stack := do
  let stack ← Reader.whole (Reader.object "struct StackTemplate" member {}) text
  return { resources := stack.resources.getD [], others := stack.others }

end Stack

end AuditFields
