import AuditFields.Toml.Reader

/-!
# Configuration

The settings that all annotated types of a schema share, and how a text gives them. A text may leave
any of them out. The entries are looked at in order, and the first that is no setting, or has a value
of another type, is the reason why a text is refused.
-/

namespace AuditFields

/-- The settings shared by all annotated types. The defaults suit user pools. -/
structure Config where
  /-- The claims that may identify who makes a request, in the order in which they are tried. -/
  identityClaims : List String := ["username", "cognito:username"]
  /-- The actor when no claim is there and no identity is required. -/
  missingIdentityValue : String := "-NO-IDENTITY-"
  /-- The resource of the API that resolvers belong to. -/
  apiLogicalId : String := "GraphQLAPI"
  /-- The name of the blocks put in front of request templates. -/
  snippetBlockName : String := "ObjectMeta Fields"
  deriving DecidableEq, Repr

namespace Config

/-- Why a text is refused as a configuration. -/
inductive Refusal where
  | malformed
  | invalid (message : String)
  deriving DecidableEq, Repr

/-- The settings by name, in the order in which messages list them. -/
def keys : List String :=
  ["identity_claims", "missing_identity_value", "api_logical_id", "snippet_block_name"]

/-- A name in backquotes, as messages show it. -/
def shown (name : String) : String := "`" ++ name ++ "`"

def wrongType {α : Type} (found : Toml.Value) (expected : String) : Except Refusal α :=
  .error (.invalid ("invalid type: " ++ found.describe ++ ", expected " ++ expected))

def stringOf : Toml.Value → Except Refusal String
  | .string s => .ok s
  | other => wrongType other "a string"

def stringsOf : Toml.Value → Except Refusal (List String)
  | .array items => items.mapM stringOf
  | other => wrongType other "a sequence"

def set (config : Config) (entry : String × Toml.Value) : Except Refusal Config :=
  match entry with
  | ("identity_claims", value) =>
    (stringsOf value).map fun claims => { config with identityClaims := claims }
  | ("missing_identity_value", value) =>
    (stringOf value).map fun s => { config with missingIdentityValue := s }
  | ("api_logical_id", value) => (stringOf value).map fun s => { config with apiLogicalId := s }
  | ("snippet_block_name", value) =>
    (stringOf value).map fun s => { config with snippetBlockName := s }
  | (name, _) =>
    .error (.invalid ("unknown field " ++ shown name ++ ", expected one of " ++
      Text.joinWith ", " (keys.map shown)))

/-- The configuration that a text gives. -/
def ofText (text : String) : Except Refusal Config :=
  match Toml.entriesOf? text with
  | none => .error .malformed
  | some entries => entries.foldlM set {}

end Config

end AuditFields
