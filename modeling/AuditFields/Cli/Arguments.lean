/-!
# Command lines

What a command line asks for. Options stand before or after the name of the command; those about the
log are allowed in both places, and the later place counts. An option that is not given may be set
by an environment variable. A command line that does not fit is refused as a whole.
-/

namespace AuditFields.Cli

/-! ## What can be asked for -/

/-- The least level of the log lines that are shown. -/
inductive LogLevel where
  | off
  | error
  | warn
  | info
  | debug
  | trace
  deriving DecidableEq, Repr

def LogLevel.ofName? : String → Option LogLevel
  | "off" => some .off
  | "error" => some .error
  | "warn" => some .warn
  | "info" => some .info
  | "debug" => some .debug
  | "trace" => some .trace
  | _ => none

/-- How log lines are written. -/
inductive LogStyle where
  | text
  | json
  deriving DecidableEq, Repr

def LogStyle.ofName? : String → Option LogStyle
  | "text" => some .text
  | "json" => some .json
  | _ => none

/-- The paths that a transformation works with. -/
structure Paths where
  schema : String
  resources : String
  config : Option String := none
  outDir : String := "."
  deriving DecidableEq, Repr

/-- A command. -/
inductive Command where
  /-- Transforms the annotated types of a schema. -/
  | transform (paths : Paths)
  | definition
  deriving DecidableEq, Repr

/-- A command with the settings of its log. -/
structure Invocation where
  command : Command
  level : LogLevel := .warn
  style : LogStyle := .text
  deriving DecidableEq, Repr

/-- Why a command line asks for no command. -/
inductive Exit where
  | usage
  | version
  | help
  deriving DecidableEq, Repr

/-! ## Options -/

/-- An option; each takes a value. -/
inductive Flag where
  | log
  | logStyle
  | schema
  | resources
  | config
  | outDir
  deriving DecidableEq, Repr

namespace Flag

/-- The options that are allowed before and after the name of the command. -/
def global : List Flag := [.log, .logStyle]

def ofTransform : List Flag := [.log, .logStyle, .schema, .resources, .config, .outDir]

def long : Flag → String
  | .log => "log"
  | .logStyle => "log-style"
  | .schema => "schema"
  | .resources => "resources"
  | .config => "config"
  | .outDir => "out-dir"

/-- The letter of an option, if it has one. -/
def short? : Flag → Option Char
  | .log => none
  | .logStyle => none
  | .schema => some 's'
  | .resources => some 'r'
  | .config => some 'c'
  | .outDir => some 'o'

/-- The environment variable that sets an option, if there is one. -/
def setBy? : Flag → Option String
  | .log => some "OBJECTMETA_LOG"
  | .logStyle => some "OBJECTMETA_LOG_STYLE"
  | .config => some "OBJECTMETA_CONFIG_PATH"
  | _ => none

def accepts (flag : Flag) (value : String) : Bool :=
  match flag with
  | .log => (LogLevel.ofName? value).isSome
  | .logStyle => (LogStyle.ofName? value).isSome
  | _ => !value.isEmpty

end Flag

abbrev Given := List (Flag × String)

/-- One more option, which may not be given twice and has to take its value. -/
def Given.add (flag : Flag) (value : String) (given : Given) : Except Exit Given :=
  if (given.lookup flag).isSome || !flag.accepts value then .error .usage
  else .ok ((flag, value) :: given)

/-! ## Arguments -/

/-- The form of an argument. -/
inductive Form where
  /-- Two dashes alone: what follows is no option. -/
  | terminator
  /-- Two dashes and a name, with a value behind an equals sign if there is one. -/
  | long (name : String) (value : Option String)
  /-- A dash, a letter and what follows it. -/
  | short (letter : Char) (rest : List Char)
  | word

def Form.of (argument : String) : Form :=
  match argument.toList with
  | ['-', '-'] => .terminator
  | '-' :: '-' :: cs =>
    let name := String.ofList (cs.takeWhile (· != '='))
    match cs.dropWhile (· != '=') with
    | _ :: value => .long name (some (String.ofList value))
    | [] => .long name none
  | '-' :: c :: cs => .short c cs
  | _ => .word

/-- The value that follows the letter of an option in its argument, if there is one. -/
def attached : List Char → Option String
  | [] => none
  | '=' :: cs => some (String.ofList cs)
  | cs => some (String.ofList cs)

/-- The options of a part of a command line, and the command with the arguments after its name if one
comes. The part before the command knows the commands and the version. -/
def options (commands : List String) (known : List Flag) :
    List String → Option Flag → Given → Except Exit (Given × Option (String × List String))
  | [], none, given => .ok (given, none)
  | [], some _, _ => .error .usage
  | argument :: rest, pending, given =>
    if pending.isNone && commands.contains argument then .ok (given, some (argument, rest))
    else
      match Form.of argument, pending with
      | .word, some flag => do options commands known rest none (← given.add flag argument)
      | .word, none => .error .usage
      | _, some _ => .error .usage
      | .terminator, none => if rest.isEmpty then .ok (given, none) else .error .usage
      | .long name value, none =>
        match known.find? (·.long == name), value with
        | some flag, some value => do
          options commands known rest none (← given.add flag value)
        | some flag, none => options commands known rest (some flag) given
        | none, none =>
          if name = "help" then .error .help
          else if name = "version" && !commands.isEmpty then .error .version
          else .error .usage
        | none, some _ => .error .usage
      | .short letter tail, none =>
        match known.find? (·.short? == some letter) with
        | some flag =>
          match attached tail with
          | some value => do options commands known rest none (← given.add flag value)
          | none => options commands known rest (some flag) given
        | none =>
          if letter = 'h' then .error .help
          else if letter = 'V' && !commands.isEmpty then .error .version
          else .error .usage

/-! ## Whole command lines -/

abbrev Environment := String → Option String

def Flag.ofEnvironment? (environment : Environment) (flag : Flag) : Option String :=
  flag.setBy?.bind environment

/-- Whether the environment sets the options that a part of a command line leaves open as they can
be set. -/
def environmentFits (environment : Environment) (known : List Flag) (given : Given) : Bool :=
  known.all fun flag =>
    (given.lookup flag).isSome || (flag.ofEnvironment? environment).all flag.accepts

/-- The value of an option: by the arguments after the command, by those before it, or by the
environment. -/
def valueOf? (environment : Environment) (before after : Given) (flag : Flag) : Option String :=
  after.lookup flag <|> before.lookup flag <|> flag.ofEnvironment? environment

def commandOf (value? : Flag → Option String) : String → Except Exit Command
  | "definition" => .ok .definition
  | _ =>
    match value? .schema, value? .resources with
    | some schema, some resources =>
      .ok (.transform
        { schema, resources, config := value? .config, outDir := (value? .outDir).getD "." })
    | _, _ => .error .usage

def commandNames : List String := ["transform", "definition", "help"]

def flagsOf (command : String) : List Flag :=
  if command = "transform" then Flag.ofTransform else Flag.global

def Invocation.ofArguments (environment : Environment) (arguments : List String) :
    Except Exit Invocation := do
  match ← options commandNames Flag.global arguments none [] with
  | (_, none) => .error .usage
  | (before, some (name, rest)) =>
    if name = "help" then .error .help
    let (after, _) ← options [] (flagsOf name) rest none []
    if !(environmentFits environment Flag.global before &&
        environmentFits environment (flagsOf name) after) then
      .error .usage
    let value? := valueOf? environment before after
    return {
      command := ← commandOf value? name
      level := ((value? .log).bind LogLevel.ofName?).getD .warn
      style := ((value? .logStyle).bind LogStyle.ofName?).getD .text }

end AuditFields.Cli
