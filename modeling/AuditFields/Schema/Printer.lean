import AuditFields.Schema.Basic
import AuditFields.Text.Block

/-!
# The text of schemas

Each definition of a schema on lines of its own, with an empty line between each two: the roots, the
directives, the types in their order and the extensions. Fields and values are indented by two
blanks. A description is a quoted literal, or a block if it has more than one line.
-/

namespace AuditFields.Schema

def indent : String := "  "

/-- The text of a description, on lines of its own. -/
def renderDescription (indent : String) : Option String → String
  | none => ""
  | some text =>
    if text.toList.contains '\n' then Text.Block.write indent text
    else indent ++ Text.quoted text ++ "\n"

/-- The text of a directive. Parentheses stand around arguments only. -/
def Directive.render (directive : Directive) : String :=
  "@" ++ directive.name ++
    match directive.arguments with
    | [] => ""
    | arguments => "(" ++ Text.joinWith ", " (Value.renderMembers arguments) ++ ")"

/-- The text of directives, each behind a blank. -/
def renderDirectives (directives : List Directive) : String :=
  String.join (directives.map fun directive => " " ++ directive.render)

/-- The text of an input field without its description. -/
def InputField.render (field : InputField) : String :=
  field.name ++ ": " ++ field.type.render ++
    (match field.default with
    | none => ""
    | some value => " = " ++ value.render) ++
    renderDirectives field.directives

/-- The text of an argument definition, with its description in front. -/
def InputField.renderInline (field : InputField) : String :=
  (match field.description with
  | none => ""
  | some text => Text.quoted text ++ " ") ++ field.render

/-- The text of argument definitions. Parentheses stand around arguments only. -/
def renderArguments : List InputField → String
  | [] => ""
  | arguments => "(" ++ Text.joinWith ", " (arguments.map InputField.renderInline) ++ ")"

/-- The text of a field without its description. -/
def Field.render (field : Field) : String :=
  field.name ++ renderArguments field.arguments ++ ": " ++ field.type.render ++
    renderDirectives field.directives

/-- The line of a part of a definition, after the lines of its description. -/
def renderLine (description : Option String) (text : String) : String :=
  renderDescription indent description ++ indent ++ text ++ "\n"

def renderBody (lines : List String) : String :=
  " \x7b\n" ++ String.join lines ++ "\x7d\n"

/-- The text of an object or interface type. -/
def ObjectType.render (keyword : String) (type : ObjectType) : String :=
  renderDescription "" type.description ++ keyword ++ " " ++ type.name ++
    (match type.interfaces with
    | [] => ""
    | interfaces => " implements " ++ Text.joinWith " & " interfaces) ++
    renderDirectives type.directives ++
    renderBody (type.fields.map fun field => renderLine field.description field.render)

/-- The text of a scalar type. -/
def ScalarType.render (type : ScalarType) : String :=
  renderDescription "" type.description ++ "scalar " ++ type.name ++
    renderDirectives type.directives ++ "\n"

/-- The text of a union type. -/
def UnionType.render (type : UnionType) : String :=
  renderDescription "" type.description ++ "union " ++ type.name ++
    renderDirectives type.directives ++
    (match type.members with
    | [] => ""
    | members => " = " ++ Text.joinWith " | " members) ++ "\n"

/-- The text of an enum type. -/
def EnumType.render (type : EnumType) : String :=
  renderDescription "" type.description ++ "enum " ++ type.name ++
    renderDirectives type.directives ++
    renderBody (type.values.map fun value =>
      renderLine value.description (value.name ++ renderDirectives value.directives))

/-- The text of an input type. -/
def InputType.render (type : InputType) : String :=
  renderDescription "" type.description ++ "input " ++ type.name ++
    renderDirectives type.directives ++
    renderBody (type.fields.map fun field => renderLine field.description field.render)

/-- The text of a type. -/
def TypeDefinition.render : TypeDefinition → String
  | .scalar type => type.render
  | .object type => type.render "type"
  | .interface type => type.render "interface"
  | .union type => type.render
  | .enum type => type.render
  | .input type => type.render

/-- The line of a root operation, if it has a root type. -/
def renderRoot (operation : String) : Option String → String
  | none => ""
  | some name => indent ++ operation ++ ": " ++ name ++ "\n"

/-- The text of the roots. -/
def Roots.render (roots : Roots) : String :=
  "schema" ++ renderDirectives roots.directives ++
    renderBody [renderRoot "query" roots.query, renderRoot "mutation" roots.mutation,
      renderRoot "subscription" roots.subscription]

/-- The text of the definition of a directive. -/
def DirectiveDefinition.render (definition : DirectiveDefinition) : String :=
  "directive @" ++ definition.name ++ renderArguments definition.arguments ++
    (if definition.repeatable then " repeatable" else "") ++ " on " ++
    Text.joinWith " | " (definition.locations.map Location.render) ++ "\n"

def renderExtension (type : TypeDefinition) : String :=
  "extend " ++ type.render

/-- The text of a schema. -/
def render (schema : Schema) : String :=
  Text.joinWith "\n"
    (schema.roots.toList.map Roots.render ++
      schema.directiveDefinitions.map DirectiveDefinition.render ++
      schema.types.values.map TypeDefinition.render ++
      schema.extensions.map renderExtension)

end AuditFields.Schema
