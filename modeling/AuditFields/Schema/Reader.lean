import AuditFields.Schema.Fault

/-!
# Reading schema documents

The grammar of documents over token lists. A reader takes tokens off the front and stops at the
first token that cannot continue the document. What a well-formed part means is checked as soon as
the token after it is known, so an unreadable place right behind a part is reported first.
-/

namespace AuditFields.Schema

/-- Takes a part of a document off the front of the tokens, or finds a fault. -/
abbrev Reader (α : Type) := StateT (List Token) (Except Fault) α

namespace Reader

variable {α : Type}

/-! ## Tokens -/

/-- The next token, which stays, if there is one. -/
def peek : Reader (Option Token) := do
  return (← get).head?

def take : Reader Token := do
  match ← get with
  | [] => throw .unexpectedEnd
  | .unreadable shown :: _ => throw (.unreadable shown)
  | token :: rest => set rest; return token

def refuse (token : Token) : Reader α :=
  throw (.unexpected token)

/-- Reports what is wrong with the part just taken, unless the next place is unreadable. -/
def report (fault : Fault) : Reader α := do
  match ← peek with
  | some (.unreadable shown) => throw (.unreadable shown)
  | _ => throw fault

def nextIs (p : Punctuator) : Reader Bool := do
  return (← peek) == some (.punctuator p)

def expect (p : Punctuator) : Reader Unit := do
  let token ← take
  if token = .punctuator p then return () else refuse token

def skip (p : Punctuator) : Reader Unit := do
  if ← nextIs p then discard take

/-- Takes a name; the keywords are names too. -/
def name : Reader String := do
  match ← take with
  | .name text => return text
  | token => refuse token

def nextIsKeyword (keyword : String) : Reader Bool := do
  return (← peek) == some (.name keyword)

def expectKeyword (keyword : String) : Reader Unit := do
  let token ← take
  if token = .name keyword then return () else refuse token

/-! ## Repetition -/

/-- Takes parts as long as the next token starts one, at most one for each token of the bound. -/
def manyUpTo (starts : Token → Bool) (part : Reader α) : List Token → Reader (List α)
  | [] => return []
  | _ :: bound => do
    match ← peek with
    | some token =>
      if starts token then return (← part) :: (← manyUpTo starts part bound) else return []
    | none => return []

/-- Takes parts as long as the next token starts one. A part has at least one token, so there are
no more parts than tokens. -/
def many (starts : Token → Bool) (part : Reader α) : Reader (List α) := do
  manyUpTo starts part (← get)

/-- Takes parts up to the closing punctuator, and the punctuator. -/
def manyUntil (closing : Punctuator) (part : Reader α) : Reader (List α) := do
  let parts ← many (· != .punctuator closing) part
  expect closing
  return parts

def enclosed (opening closing : Punctuator) (part : Reader α) : Reader (List α) := do
  expect opening
  let first ← part
  return first :: (← manyUntil closing part)

/-- Takes one part or more between two punctuators if the opening one is next. -/
def enclosedIfAny (opening closing : Punctuator) (part : Reader α) : Reader (List α) := do
  if ← nextIs opening then enclosed opening closing part else return []

/-- Takes one part or more with a punctuator between each two; one in front of all is allowed. -/
def separated (separator : Punctuator) (part : Reader α) : Reader (List α) := do
  skip separator
  let first ← part
  return first :: (← many (· == .punctuator separator) (do expect separator; part))

/-! ## Values -/

def isName : Token → Bool
  | .name _ => true
  | _ => false

/-- Takes a name, a colon and what follows. -/
def named (part : Reader α) : Reader (String × α) := do
  let key ← name
  expect .colon
  return (key, ← part)

/-- Takes a value in which lists and objects nest at most one level for each token of the bound. -/
def valueUpTo : List Token → Reader Value
  | [] => throw .unexpectedEnd
  | _ :: bound => do
    match ← take with
    | .int value => return .int value
    | .float value => return .float value
    | .string text => return .string text
    | .block text => return .string text
    | .badString digits => report (.badString digits)
    | .name "true" => return .boolean true
    | .name "false" => return .boolean false
    | .name "null" => return .null
    | .name text => return .enum text
    | .punctuator .openBracket => return .list (← manyUntil .closeBracket (valueUpTo bound))
    | .punctuator .openBrace =>
      let members ← many isName (named (valueUpTo bound))
      expect .closeBrace
      return .object members
    | .punctuator .dollar => report (.unknownLocation (← name))
    | token => refuse token

/-- Takes a value. Each level of nesting has a token of its own, so the bound is no restriction. -/
def value : Reader Value := do
  valueUpTo (← get)

/-! ## Parts of definitions -/

def description : Reader (Option String) := do
  match ← peek with
  | some (.string text) => discard take; return some text
  | some (.block text) => discard take; return some text
  | some (.badString digits) => discard take; report (.badString digits)
  | _ => return none

def arguments : Reader (List (String × Value)) := do
  if ← nextIs .openParen then
    discard take
    let members ← many isName (named value)
    expect .closeParen
    return members
  else return []

def directive : Reader Directive := do
  expect .at
  let name ← name
  return ⟨name, ← arguments⟩

def directives : Reader (List Directive) :=
  many (· == .punctuator .at) directive

/-- Takes a type. Opening brackets carry no meaning; after the name each closing bracket wraps the
type so far in a list, and each exclamation mark makes it non-null. -/
def type : Reader TypeRef := do
  discard (many (· == .punctuator .openBracket) take)
  let base ← name
  let marks ← many (fun t => t == .punctuator .bang || t == .punctuator .closeBracket) take
  let wrap := fun (type : TypeRef) mark =>
    if mark = Token.punctuator .bang then type.asNonNull else .list type
  return marks.foldl wrap (.named base)

def default : Reader (Option Value) := do
  if ← nextIs .equals then
    discard take
    return some (← value)
  else return none

def inputField : Reader InputField := do
  let description ← description
  let name ← name
  expect .colon
  let type ← type
  let default ← default
  return ⟨description, name, type, default, ← directives⟩

def field : Reader Field := do
  let description ← description
  let name ← name
  let arguments ← enclosedIfAny .openParen .closeParen inputField
  expect .colon
  let type ← type
  return ⟨description, name, arguments, type, ← directives⟩

/-- Takes a value of an enum type, which is any name but those of other values. -/
def enumValue : Reader EnumValue := do
  let description ← description
  let name ← name
  if ["true", "false", "null"].contains name then refuse (.name name)
  return ⟨description, name, ← directives⟩

/-- Takes the interfaces that a type implements, if it names any. -/
def interfaces : Reader (List String) := do
  if ← nextIsKeyword "implements" then
    discard take
    separated .ampersand name
  else return []

def location : Reader Location := do
  let name ← name
  match Location.ofName? name with
  | some location => return location
  | none => report (.unknownLocation name)

def rootOperation : Reader (Operation × String) := do
  let token ← take
  let operation ←
    match token with
    | .name "query" => pure Operation.query
    | .name "mutation" => pure Operation.mutation
    | .name "subscription" => pure Operation.subscription
    | _ => refuse token
  expect .colon
  return (operation, ← name)

/-! ## Definitions -/

/-- The roots of the directives and root operations, of which the first of each kind counts. -/
def rootsOf (directives : List Directive) (operations : List (Operation × String)) : Roots where
  directives := directives
  query := operations.lookup .query
  mutation := operations.lookup .mutation
  subscription := operations.lookup .subscription

def rootOperations : Reader (List (Operation × String)) := do
  expect .openBrace
  manyUntil .closeBrace rootOperation

def roots : Reader Roots := do
  let directives ← directives
  return rootsOf directives (← rootOperations)

def rootsExtension : Reader Roots := do
  let directives ← directives
  if ← nextIs .openBrace then return rootsOf directives (← rootOperations)
  else return rootsOf directives []

def directiveDefinition : Reader DirectiveDefinition := do
  expect .at
  let name ← name
  let arguments ← enclosedIfAny .openParen .closeParen inputField
  let repeatable ← nextIsKeyword "repeatable"
  if repeatable then discard take
  expectKeyword "on"
  return ⟨name, arguments, repeatable, ← separated .pipe location⟩

def scalarType (description : Option String) : Reader ScalarType := do
  let name ← name
  return ⟨description, name, ← directives⟩

def objectType (description : Option String) : Reader ObjectType := do
  let name ← name
  let interfaces ← interfaces
  let directives ← directives
  return ⟨description, name, interfaces, directives,
    ← enclosedIfAny .openBrace .closeBrace field⟩

def unionType (description : Option String) : Reader UnionType := do
  let unionName ← name
  let directives ← directives
  if ← nextIs .equals then
    discard take
    return ⟨description, unionName, directives, ← separated .pipe name⟩
  else return ⟨description, unionName, directives, []⟩

def enumType (description : Option String) : Reader EnumType := do
  let name ← name
  let directives ← directives
  return ⟨description, name, directives, ← enclosedIfAny .openBrace .closeBrace enumValue⟩

def inputType (description : Option String) : Reader InputType := do
  let name ← name
  let directives ← directives
  return ⟨description, name, directives, ← enclosedIfAny .openBrace .closeBrace inputField⟩

def typeDefinition (description : Option String) (keyword : Token) : Reader TypeDefinition := do
  match keyword with
  | .name "scalar" => return .scalar (← scalarType description)
  | .name "type" => return .object (← objectType description)
  | .name "interface" => return .interface (← objectType description)
  | .name "union" => return .union (← unionType description)
  | .name "enum" => return .enum (← enumType description)
  | .name "input" => return .input (← inputType description)
  | token => refuse token

end Reader

/-! ## Documents -/

/-- A definition of a document. -/
inductive Definition where
  | roots (roots : Roots)
  | rootsExtension (roots : Roots)
  | directive (definition : DirectiveDefinition)
  | type (definition : TypeDefinition)
  | extension (definition : TypeDefinition)
  deriving DecidableEq

namespace Reader

/-- Takes a definition. The description of the roots or of a directive has no place in a schema. -/
def definition : Reader Definition := do
  let description ← description
  match ← take with
  | .name "schema" => return .roots (← roots)
  | .name "directive" => return .directive (← directiveDefinition)
  | .name "extend" =>
    match ← take with
    | .name "schema" => return .rootsExtension (← rootsExtension)
    | keyword => return .extension (← typeDefinition description keyword)
  | keyword => return .type (← typeDefinition description keyword)

/-- Takes all definitions of a document, at least one. -/
def document : Reader (List Definition) := do
  let first ← definition
  return first :: (← many (fun _ => true) definition)

end Reader

end AuditFields.Schema

namespace AuditFields.Schema

/-- The schema with one more definition. A second definition of the roots takes the place of the
first, an extension of the roots adds to them, and no type may be defined twice. -/
def addDefinition (schema : Schema) : Definition → Except Fault Schema
  | .roots roots => .ok { schema with roots := some roots }
  | .rootsExtension extension =>
    .ok { schema with roots := some ((schema.roots.getD {}).extend extension) }
  | .directive definition =>
    .ok { schema with
      directiveDefinitions := schema.directiveDefinitions ++ [definition] }
  | .type definition =>
    if schema.types.contains definition.name then .error (.duplicateType definition.name)
    else .ok (schema.put definition)
  | .extension definition => .ok { schema with extensions := schema.extensions ++ [definition] }

def definitionsOf (text : String) : Except Fault (List Definition) :=
  if Text.isAllBlank text.toList then .error .empty
  else (Reader.document.run (Token.list text.toList)).map (·.1)

/-- The schema that a text denotes. -/
def ofText (text : String) : Except Fault Schema := do
  (← definitionsOf text).foldlM addDefinition {}

end AuditFields.Schema
