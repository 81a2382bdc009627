import Whence.Command.Report
import Whence.Toml.Basic

/-!
# The command

Settings come from the file that the command line names, else from the nearest settings file in
the working directory or above it, else they have their defaults.
-/

namespace Whence.Command

def settingsFileName : String := "Sliver.toml"

def configurationOf (path : String) : Except Refusal String → Except Failure Configuration
  | .error refusal => .error (.unreadable path refusal)
  | .ok text =>
    match (Toml.parse? text).bind (Configuration.ofDocument? .ignored) with
    | some configuration => .ok configuration
    | none => .error (.malformed path)

/-- Takes the first of the files that exists. -/
def nearest {m : Type → Type} [Monad m] (disk : Disk m) :
    List String → m (Except Failure Configuration)
  | [] => pure (.ok {})
  | path :: paths => do
    match ← disk.read path with
    | .ok text => pure (configurationOf path (.ok text))
    | .error refusal =>
      if refusal.isAbsence then nearest disk paths
      else pure (.error (.unreadable path refusal))

def settingsPaths (directory : String) : List String :=
  (upward (pathNames directory)).map fun names ↦ absolutePath (names ++ [settingsFileName])

def configuration {m : Type → Type} [Monad m] (disk : Disk m) :
    Option String → m (Except Failure Configuration)
  | some path => do return configurationOf path (← disk.read path)
  | none => nearest disk (settingsPaths disk.directory)

def usage : Report where
  exitCode := 2
  diagnostics :=
    "usage: sliver [--config FILE] list | run NAME [--json] [--explain] | " ++
      "forward NAME --literal TEXT | backward NAME | test [NAME...]\n"

/-- Runs a command line, without the name of the program. -/
def execute {m : Type → Type} [Monad m] (disk : Disk m) (words : List String) : m Report := do
  match Invocation.ofWords? words with
  | none => pure usage
  | some invocation =>
    match ← configuration disk invocation.settingsFile with
    | .error failure => pure failure.report
    | .ok configuration => pure (invocation.action.perform configuration.evaluation)

end Whence.Command
