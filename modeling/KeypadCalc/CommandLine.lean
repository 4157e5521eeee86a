import KeypadCalc.CommandLine.Arguments
import KeypadCalc.CommandLine.Environment
import KeypadCalc.Config.File
import KeypadCalc.Console

/-! Running the program once: the arguments, the files and the input go in, and what is printed, the
exit code and the files after it come out. -/

namespace KeypadCalc.CommandLine

/-- What a run prints, and the code it exits with. -/
structure Outcome where
  exitCode : UInt32
  output : String
  error : Option String
deriving DecidableEq

namespace Outcome

def success (output : String) : Outcome := ⟨0, output, none⟩

/-- A run that fails after it has printed something. -/
def failure (output error : String) : Outcome := ⟨1, output, some error⟩

def ofEnding (output : String) : Console.Ending → Outcome
  | .invalidText => failure output "stream did not contain valid UTF-8"
  | _ => success output

end Outcome

def usage : String :=
  "A keypad calculator with persistent history\n\n"
    ++ "Usage: pocketcalc [OPTIONS] [COMMAND]\n\n"
    ++ "Commands:\n"
    ++ "  eval EXPRESSION [--copy] [--no-history]\n"
    ++ "  preview EXPRESSION\n"
    ++ "  history [--json]\n"
    ++ "  clear-history\n"
    ++ "  repl\n\n"
    ++ "Options:\n"
    ++ "      --config CONFIG\n"
    ++ "      --data-dir DATA_DIR\n"
    ++ "  -v, --verbose\n"

def nameAndVersion : String := "pocketcalc 0.1.0\n"

def Halt.outcome : Halt → Outcome
  | .misuse => ⟨2, "", none⟩
  | .help => .success usage
  | .version => .success nameAndVersion

/-- A run that can begin: what to do, and the session to do it in. -/
structure Task where
  command : Command
  session : Session

/-- The file that holds the settings of a run. -/
def configFile? (env : Environment) (inv : Invocation) : Option Text :=
  inv.config.or env.configFile?

def configFor (env : Environment) (tree : FileTree) (inv : Invocation) :
    Except LoadError Config :=
  match configFile? env inv with
  | none => .ok {}
  | some file => Config.load tree env.workDir file

/-- The directory in which a run keeps the history. -/
def dataDirFor (env : Environment) (config : Config) (inv : Invocation) : Option Path :=
  ((inv.dataDir.or config.history.dataDir).or env.dataDir?).map (Path.ofText env.workDir)

/-- The task that an invocation sets, over the files of a tree. -/
def prepare (env : Environment) (tree : FileTree) (inv : Invocation) : Except Outcome Task :=
  match configFor env tree inv with
  | .error e => .error (.failure "" e.message)
  | .ok config =>
    match dataDirFor env config inv with
    | none => .error (.failure "" "Could not determine a data directory; pass --data-dir")
    | some root =>
      let history := config.historyIn (.directory tree root)
      .ok ⟨inv.command, .new history config.history.enabled⟩

/-- Evaluates a text and prints its value. No clipboard can be reached, so a value that was to be
copied is printed and recorded before that fails. -/
def evaluate (now : Int64) (s : Session) (expression : Text) (copy : Bool) : Outcome × Session :=
  match s.commitText now expression with
  | (.ok (some v), s) =>
    let output := String.ofList (NumberText.display v) ++ "\n"
    if copy then (.failure output "Failed to access clipboard", s) else (.success output, s)
  | (.ok none, s) => (.success (String.ofList s.keypad.display.result ++ "\n"), s)
  | (.error e, s) => (.failure "" e.message, s)

/-- Carries out a task, with the input that the console reads. -/
def Task.perform (task : Task) (now : Int64) (input : Bytes) : Outcome × Session :=
  let s := task.session
  match task.command with
  | .eval expression copy noHistory =>
    evaluate now { s with records := s.records && !noHistory } expression copy
  | .preview expression =>
    let shown := (Evaluation.preview expression).getD Keypad.pending
    (.success (String.ofList shown ++ "\n"), s)
  | .history json =>
    let shown :=
      if json then String.ofList (Entry.writeAll Entry.pretty s.entries) ++ "\n"
      else Entry.listing s.entries
    (.success shown, s)
  | .clearHistory =>
    let (cleared, history) := s.history.clear
    let s := { s with history }
    match cleared with
    | .ok () => (.success "History cleared\n", s)
    | .error e => (.failure "" ("Failed to clear history: " ++ e.message), s)
  | .repl =>
    let outcome := Console.run now s input
    (Outcome.ofEnding outcome.output outcome.ending, outcome.session)

/-- Runs the program once at the time `now`. -/
def run (env : Environment) (now : Int64) (tree : FileTree) (args : List Text) (input : Bytes) :
    Outcome × FileTree :=
  match Invocation.ofArguments args with
  | .error halt => (halt.outcome, tree)
  | .ok inv =>
    match prepare env tree inv with
    | .error outcome => (outcome, tree)
    | .ok task =>
      let (outcome, s) := task.perform now input
      (outcome, s.history.storage.tree?.getD tree)

end KeypadCalc.CommandLine
