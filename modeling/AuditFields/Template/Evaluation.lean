import AuditFields.Template.Basic

/-!
# Running templates

What a template does to a request. Statements run in order; a refusal stops the run and leaves the
request as the statements before it made it. The identity is a value of its own, which no statement
may use before one has resolved it.
-/

namespace AuditFields

/-- A request during a run, with the identity once it is resolved. -/
structure Run where
  request : Request
  identity : Option Json := none
  deriving DecidableEq

/-- A part of a run, which may refuse the request. -/
abbrev Running (α : Type) := ExceptT RequestRefusal (StateM Run) α

def firstClaim? (request : Request) (claims : List String) : Option Json :=
  claims.findSome? fun claim =>
    match request.claims.get? claim with
    | none => none
    | some value => if value.isNull then none else some value

/-- The identity that claims and a fallback give, which is null if neither is there. -/
def resolvedIdentity (request : Request) (claims : List String) (fallback : Option String) :
    Json :=
  (firstClaim? request claims).getD (fallback.elim .null .string)

/-- The resolved identity, without which nothing may use it. -/
def Running.identity : Running Json := do
  match (← get).identity with
  | some value => return value
  | none => throw .identityNotSought

namespace Operand

def eval : Operand → Running Json
  | .now => return .int (← get).request.now
  | .identity => Running.identity
  | .bool value => return .bool value

end Operand

/-- Whether an identity counts as absent: the null value and the empty string. -/
def isAbsentIdentity : Json → Bool
  | .null => true
  | .string s => s.isEmpty
  | _ => false

/-- Writes a field of the input. A field that is there keeps its place. -/
def Run.put (field : String) (value : Json) (run : Run) : Run :=
  { run with request :=
      { run.request with input := run.request.input.put field value } }

mutual

def Statement.eval : Statement → Running Unit
  | .identify claims fallback =>
    modify fun run =>
      { run with identity := some (resolvedIdentity run.request claims fallback) }
  | .demandIdentity => do
    if isAbsentIdentity (← Running.identity) then throw .noIdentity
  | .put field value => do
    let written ← value.eval
    modify (Run.put field written)
  | .ifTrue field body => do
    if (← get).request.input.get? field = some (.bool true) then evalAll body

def Statement.evalAll : List Statement → Running Unit
  | [] => return ()
  | statement :: statements => do
    statement.eval
    evalAll statements

end

/-- Runs a template on a request: whether it was refused, and the request afterwards. -/
def RequestTemplate.evaluate (template : RequestTemplate) (request : Request) :
    Except RequestRefusal Unit × Request :=
  let (outcome, run) := (Statement.evalAll template.statements).run { request }
  (outcome, run.request)

end AuditFields
