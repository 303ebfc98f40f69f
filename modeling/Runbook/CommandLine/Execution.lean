import Runbook.CommandLine.Arguments
import Runbook.Config.Storage
import Runbook.Diagnostic.Render
import Runbook.Evaluation.Report
import Runbook.Program.Json
import Runbook.Program.Lowering
import Runbook.Registry.Standard
import Runbook.Text.Terminal
import Runbook.Value.Json

/-!
What the command line does.

A command reads and writes files by way of a `Disk`, and gives all that it prints and the status it
ends with as an `Output`.
-/
namespace Runbook

/-- What a command prints, and the status that it ends with. -/
structure Output where
  exitCode : Nat
  result : String
  /-- What is told of the runbook before it is performed. -/
  notices : List String
  /-- What the runbook tells while it is performed. -/
  log : List Logged
  /-- The milliseconds that performing it takes. -/
  elapsed : Nat
  error : String

namespace Output

/-- A result at once, and no error. -/
def success (result : String) : Output := ⟨0, result, [], [], 0, ""⟩

/-- An error that is not of the runbook. -/
def failure (message : String) : Output := ⟨1, "", [], [], 0, "Error: " ++ message⟩

end Output

/-- What an entry of the log says, as text. What is written goes to the terminal. -/
def Logged.text (logged : Logged) : String :=
  match logged.event with
  | .said .task value => "task task=" ++ value.show
  | .said _ value => Text.shown value.show
  | _ => ""

def furtherLines (text : String) : List (List Char) := (text.toList.splitOnP (· == '\n')).tail

/-- What stands in the stream of errors beside the first lines of the notices and of the entries of
the log. -/
def Output.unlogged (output : Output) : String :=
  let told := output.notices ++ output.log.map Logged.text
  String.ofList ((told.flatMap furtherLines).flatMap (· ++ ['\n'])) ++ output.error

/-- The status of a runbook that has failed while it was performed. -/
def failedStatus : Nat := 64

/-- Performs a routine without an argument; none if it does not end within `fuel`. -/
def performed? (fuel : Nat) (file : String) (json : Bool) (routine : Routine) : Option Output :=
  match routine.perform? .standard routine.defaultArgument 0 fuel with
  | none => none
  | some (.error defect) => some (Output.failure defect.message)
  | some (.ok report) =>
    let log := report.log.filter fun logged => !logged.event.isTrace
    match report.outcome with
    | .ok value =>
      let text := if json then value.toJson.pretty else value.show
      some ⟨0, text ++ "\n", [], log, report.elapsed, ""⟩
    | .error failure =>
      some ⟨failedStatus, "", [], log, report.elapsed, file ++ ": " ++ failure.message ++ "\n"⟩

def checked (file : String) (emit : Bool) (routine : Routine) : Output :=
  let text := if emit then routine.toJson.pretty
    else file ++ ": ok (" ++ toString routine.sequence.length ++ " steps, "
      ++ toString routine.library.length ++ " procedures)"
  Output.success (text ++ "\n")

variable {m : Type → Type} [Monad m]

/-- What is told of a file that can be read. -/
def Source.notices (source : Source) : List String :=
  match Document.read source.contents with
  | .ok document =>
    ["parsed file=" ++ source.filename ++ " procedures=" ++ toString document.procedures.length]
  | .error _ => []

/-- Compiles a file, and goes on with its routine; tells that it is read if `traced` holds. -/
def withRoutine (disk : Disk m) (traced : Bool) (file : String) (use : Routine → Option Output) :
    ExceptT StorageError m (Option Output) := do
  let source : Source := ⟨← disk.readFile file, file⟩
  let output := match source.compile Registry.standard.names with
    | .ok routine => use routine
    | .error diagnostic =>
      some ⟨diagnostic.reason.exitCode, "", [], [], 0, diagnostic.render ++ "\n"⟩
  let notices := if traced then source.notices else []
  pure (output.map fun output => { output with notices })

def Command.execute (disk : Disk m) (fuel : Nat) :
    Command → ExceptT StorageError m (Option Output)
  | .check file emit =>
    withRoutine disk Config.default.debug file fun routine => some (checked file emit routine)
  | .run file json path => do
    let config ← match path with
      | some path => Config.loadOrSave disk path
      | none => pure Config.default
    withRoutine disk config.debug file (performed? fuel file json)

def versionText : String := "technique 0.1.0"

def helpText : String :=
  "Compile and run Technique procedures\n\n"
    ++ "Usage: technique check FILE [--emit-ir]\n"
    ++ "       technique run FILE [--json] [--config PATH]\n"
    ++ "       technique --help\n"
    ++ "       technique --version\n"

/-- What a request comes to. -/
inductive Answer where
  | ended (output : Output)
  /-- The command line cannot be understood. -/
  | misused
  /-- A command has not ended within its limit. -/
  | unfinished

def Request.answer (disk : Disk m) (fuel : Nat) (request : Request) : m Answer :=
  match request with
  | .version => pure (.ended (.success (versionText ++ "\n")))
  | .help => pure (.ended (.success helpText))
  | .misused => pure .misused
  | .perform command => do
    match ← (command.execute disk fuel).run with
    | .ok (some output) => pure (.ended output)
    | .ok none => pure .unfinished
    | .error error => pure (.ended (.failure error.message))

end Runbook
