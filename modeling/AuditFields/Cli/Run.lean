import AuditFields.Audit.Basic
import AuditFields.Cli.Files
import AuditFields.Cli.Log
import AuditFields.Schema.Printer
import AuditFields.Schema.Reader
import AuditFields.Stack.Reader

/-!
# Running commands

What a command does to files, and what it prints. A transformation reads all of its files, works on
what they hold, and writes its three results only once all of them are there; the first thing that
goes wrong ends it.
-/

namespace AuditFields.Cli

/-! ## The outcome of a command -/

/-- How a run of the program ends: its exit code, what it prints, its log, and what went wrong. -/
structure Outcome where
  exitCode : Nat
  output : String := ""
  log : List LogLine := []
  problem : Option String := none
  deriving DecidableEq, Repr

abbrev Work (m : Type → Type) (α : Type) := ExceptT String (StateT (List LogLine) m) α

/-! ## Transforming -/

/-- The results of a transformation: what is written, and the types it is about. -/
structure Results where
  api : Api
  transformed : List String

/-- The file names and texts of the results, in the order in which they are written. -/
def Results.files (results : Results) : List (String × String) :=
  [("schema.graphql", results.api.schema.render),
   ("stack.json", results.api.stack.toJson.indented),
   ("stack-mapping.json",
    (Json.object
      (results.api.stackMapping.map fun entry => (entry.1, .string entry.2))).indented)]

section

variable {m : Type → Type} [Monad m]

def readFile (files : FileSystem m) (what path : String) : Work m String := do
  match ← files.read path with
  | some text => return text
  | none => throw ("could not read the " ++ what ++ " at " ++ path)

def decoded {ε α : Type} (what path : String) : Except ε α → Work m α
  | .ok value => return value
  | .error _ => throw ("invalid " ++ what ++ " in " ++ path)

/-- Reads the configuration, if there is one. -/
def readConfig (files : FileSystem m) : Option String → Work m Config
  | none => return {}
  | some path => do
    decoded "configuration" path (Config.ofText (← readFile files "configuration" path))

/-- Reads the schema and the stack. The texts are both read before either is looked at. -/
def readApi (files : FileSystem m) (paths : Paths) : Work m Api := do
  let sdl ← readFile files "schema" paths.schema
  let resources ← readFile files "resources" paths.resources
  let schema ← decoded "schema" paths.schema (Schema.ofText sdl)
  let stack ← decoded "stack template" paths.resources (Stack.ofText resources)
  return { schema, stack }

def audit (config : Config) (api : Api) : Work m Results := do
  let (outcome, progress) := (Audit.auditAll config).runOn (.direct api)
  modify (· ++ progress.events.map LogLine.ofEvent)
  match outcome with
  | .ok transformed => return { api := progress.state.api, transformed }
  | .error failure => throw failure.message

def writeFile (files : FileSystem m) (directory : String) (file : String × String) :
    Work m Unit := do
  let path := joinPath directory file.1
  if !(← files.write path file.2) then throw ("could not write " ++ path)

/-- Reads the files of a transformation, transforms, and writes the results. -/
def transform (files : FileSystem m) (paths : Paths) : Work m Unit := do
  let config ← readConfig files paths.config
  let results ← audit config (← readApi files paths)
  if !(← files.makeDirectories paths.outDir) then throw ("could not create " ++ paths.outDir)
  results.files.forM (writeFile files paths.outDir)
  modify (· ++ [LogLine.finished results.transformed.length paths.outDir])

/-! ## The program -/

def runCommand (files : FileSystem m) : Command → Work m String
  | .definition => return Settings.definition
  | .transform paths => do
    transform files paths
    return ""

/-- Runs what a command line asks for. Lines of the log below the level are left out. -/
def run (files : FileSystem m) (invocation : Invocation) : m Outcome := do
  let (result, log) ← (runCommand files invocation.command).run [LogLine.started]
  let log := log.filter fun line => invocation.level.shows line.level
  match result with
  | .ok output => return { exitCode := 0, output, log }
  | .error problem => return { exitCode := 1, log, problem := some problem }

end

def Exit.outcome : Exit → Outcome
  | .usage => { exitCode := 2 }
  | .version => { exitCode := 0, output := programName ++ " " ++ programVersion ++ "\n" }
  | .help => { exitCode := 0 }

def runOnTree (environment : Environment) (arguments : List String) (tree : FileTree) :
    Outcome × FileTree :=
  match Invocation.ofArguments environment arguments with
  | .error exit => (exit.outcome, tree)
  | .ok invocation => (run FileTree.fileSystem invocation).run tree

end AuditFields.Cli
