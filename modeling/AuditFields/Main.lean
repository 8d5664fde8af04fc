import AuditFields.Cli.Run

/-!
# The program

Connects the command line to the files of the system: arguments and environment go in, the output,
the log and the exit code come out.
-/

namespace AuditFields.Cli

def usage : String :=
  "Adds audit and soft delete metadata to the @model types of an AppSync schema\n\n" ++
    "Usage: objectmeta [OPTIONS] <COMMAND>\n\n" ++
    "Commands:\n" ++
    "  transform -s <SCHEMA> -r <RESOURCES> [-c <CONFIG>] [-o <OUT_DIR>]\n" ++
    "  definition\n\n" ++
    "Options:\n" ++
    "  --log <off|error|warn|info|debug|trace>\n" ++
    "  --log-style <text|json>\n"

/-- The result of work on files, if it did not fail. -/
def attempted {α : Type} (work : IO α) : IO (Option α) := do
  match ← work.toBaseIO with
  | .ok result => return some result
  | .error _ => return none

def systemFiles : FileSystem IO where
  read path := attempted (IO.FS.readFile path)
  makeDirectories path := return (← attempted (IO.FS.createDirAll path)).isSome
  write path text := return (← attempted (IO.FS.writeFile path text)).isSome

def systemEnvironment : IO Environment := do
  let log ← IO.getEnv "OBJECTMETA_LOG"
  let style ← IO.getEnv "OBJECTMETA_LOG_STYLE"
  let config ← IO.getEnv "OBJECTMETA_CONFIG_PATH"
  return fun name =>
    match name with
    | "OBJECTMETA_LOG" => log
    | "OBJECTMETA_LOG_STYLE" => style
    | "OBJECTMETA_CONFIG_PATH" => config
    | _ => none

/-- Writes the output, the log and what went wrong, and gives the exit code. -/
def finish (style : LogStyle) (outcome : Outcome) : IO UInt32 := do
  for line in outcome.log do
    IO.eprintln (line.render style)
  IO.print outcome.output
  if let some problem := outcome.problem then IO.eprintln ("Error: " ++ problem)
  return outcome.exitCode.toUInt32

end AuditFields.Cli

open AuditFields.Cli in
def main (arguments : List String) : IO UInt32 := do
  match Invocation.ofArguments (← systemEnvironment) arguments with
  | .ok invocation => finish invocation.style (← run systemFiles invocation)
  | .error .version => finish .text Exit.version.outcome
  | .error .help => finish .text { exitCode := 0, output := usage }
  | .error .usage =>
    IO.eprint usage
    finish .text Exit.usage.outcome
