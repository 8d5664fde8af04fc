import AuditFields.Cli.Arguments
import AuditFields.Event
import AuditFields.Json.Printer

/-!
# Log lines

What the program writes beside its output: the events of the library and its own, each with a level
and the part that reports it. Which lines are shown is a matter of their level alone.
-/

namespace AuditFields.Cli

def programName : String := "objectmeta"

def programVersion : String := "0.3.0"

def libraryName : String := "graphql_objectmeta"

def componentName : Component → String
  | .directive => libraryName ++ "::directive"
  | .staging => libraryName ++ "::staging"
  | .transformer => libraryName ++ "::transformer"
  | .fields => libraryName ++ "::transformer::fields"
  | .inputs => libraryName ++ "::transformer::inputs"
  | .resolvers => libraryName ++ "::transformer::resolvers"
  | .softDelete => libraryName ++ "::transformer::soft_delete"

/-- A line of the log. -/
structure LogLine where
  level : Level
  target : String
  message : String
  deriving DecidableEq, Repr

namespace LogLine

def ofEvent (event : Event) : LogLine :=
  ⟨event.level, componentName event.component, event.message⟩

def started : LogLine :=
  ⟨.debug, programName, programName ++ " " ++ programVersion⟩

def finished (count : Nat) (outDir : String) : LogLine :=
  ⟨.info, programName, "Transformed " ++ toString count ++ " types into " ++ outDir⟩

def text (line : LogLine) : String :=
  line.level.render ++ " " ++ line.target ++ ": " ++ line.message

def json (line : LogLine) : String :=
  (Json.object
    [("level", .string line.level.render),
     ("fields", .object [("message", .string line.message)]),
     ("target", .string line.target)]).compact

/-- The line in a style. -/
def render (style : LogStyle) (line : LogLine) : String :=
  match style with
  | .text => line.text
  | .json => line.json

end LogLine

def LogLevel.shows (threshold : LogLevel) (level : Level) : Bool :=
  match threshold with
  | .off => false
  | .error => Level.error.rank ≤ level.rank
  | .warn => Level.warn.rank ≤ level.rank
  | .info => Level.info.rank ≤ level.rank
  | .debug => Level.debug.rank ≤ level.rank
  | .trace => true

end AuditFields.Cli
