import AuditFields.Template.Basic
import AuditFields.Text.Quoted

/-!
# The text of templates

A template in the template language of the API: a marker line, the statements one after the other,
and a marker line at the end. Names of fields and claims are quoted literals, so that no name can
end the statement it stands in.
-/

namespace AuditFields

namespace RequestTemplate

def identityVariable : String := "$identityValue"

def indentation (depth : Nat) : String :=
  String.ofList (List.replicate (2 * depth) ' ')

def line (depth : Nat) (text : String) : String :=
  indentation depth ++ text ++ "\n"

/-- The expression for the first claim that is there, or else the fallback. -/
def claimLookup (fallback : Option String) : List String → String
  | [] => fallback.elim "null" Text.quoted
  | claim :: claims =>
    "$util.defaultIfNull($ctx.identity.claims.get(" ++ Text.quoted claim ++ "), " ++
      claimLookup fallback claims ++ ")"

/-- The expression for a field of the input: the short form for a name, else a look-up. -/
def inputField (field : String) : String :=
  if Text.isName field.toList then "$ctx.args.input." ++ field
  else "$ctx.args.input.get(" ++ Text.quoted field ++ ")"

end RequestTemplate

/-- The expression for a value. -/
def Operand.render : Operand → String
  | .now => "$util.time.nowEpochMilliSeconds()"
  | .identity => RequestTemplate.identityVariable
  | .bool true => "true"
  | .bool false => "false"

open RequestTemplate

mutual

/-- The lines of a statement at a level of nesting. -/
def Statement.render (depth : Nat) : Statement → String
  | .identify claims fallback =>
    line depth ("#set( " ++ identityVariable ++ " = " ++ claimLookup fallback claims ++ " )")
  | .demandIdentity =>
    line depth ("#if( $util.isNullOrEmpty(" ++ identityVariable ++ ") )") ++
      line (depth + 1) "$util.error(\"Invalid identity.\")" ++ line depth "#end"
  | .put field value =>
    line depth
      ("$util.qr($ctx.args.input.put(" ++ Text.quoted field ++ ", " ++ value.render ++ "))")
  | .ifTrue field body =>
    line depth ("#if( " ++ inputField field ++ " == true )") ++ renderAll (depth + 1) body ++
      line depth "#end"

def Statement.renderAll (depth : Nat) : List Statement → String
  | [] => ""
  | statement :: statements => statement.render depth ++ renderAll depth statements

end

/-- The text of a template. -/
def RequestTemplate.render (template : RequestTemplate) : String :=
  "## [Start] " ++ template.block ++ ". **\n" ++ Statement.renderAll 0 template.statements ++
    "## [End] " ++ template.block ++ ". **"

end AuditFields
