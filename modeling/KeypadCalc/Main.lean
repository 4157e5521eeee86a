import KeypadCalc.CommandLine
import Std.Time.DateTime.Timestamp

/-! The program. It looks up the files that a run goes by, lets the run take place over them, and
puts down what has changed. The lines of the console are answered one by one. -/

namespace KeypadCalc.Program

open CommandLine

/-- The time, in milliseconds since the beginning of 1970. -/
def clock : IO Int64 := do
  return .ofInt (← Std.Time.Timestamp.now).toMillisecondsSinceUnixEpoch.val

def surroundings : IO Environment := do
  let value (name : String) : IO (Option Text) := return (← IO.getEnv name).map String.toList
  return {
    workDir := Path.split (← IO.currentDir).toString.toList
    home := ← value "HOME"
    configHome := ← value "XDG_CONFIG_HOME"
    dataHome := ← value "XDG_DATA_HOME" }

/-! ### Files -/

def fileName (place : Place) : String := "/" ++ "/".intercalate (place.map String.ofList)

/-- What stands at a place. A file that cannot be read allows as little as a directory. -/
def look (place : Place) : IO (Option Item) := do
  let file := (← IO.currentDir) / fileName place
  if ← file.isDir then return some .directory
  if !(← file.pathExists) then return none
  try return some (.file (← IO.FS.readBinFile file).toList)
  catch _ => return some .directory

/-- The tree of what stands on the way to some files, within the common limits. -/
def lookUp (paths : List Path) : IO FileTree := do
  let places := ((paths.filter Limits.common.admits).flatMap Path.places).eraseDups
  let items ← places.filterMapM fun place => return (← look place).map (place, ·)
  return ⟨items.filter fun i => i.1 ≠ [], .common⟩

/-- The items of a tree that are new after another one, with the directories before what they
hold. -/
def newItems (before after : FileTree) : List (Place × Item) :=
  (after.items.filter fun i => before.at? i.1 ≠ some i.2).mergeSort
    fun i j => i.1.length ≤ j.1.length

def makeDirectories (before after : FileTree) : IO Unit := do
  for (place, item) in newItems before after do
    if item = .directory then IO.FS.createDir (fileName place)

/-- Puts down what has changed from one tree to another. A file is written beside its place
first. -/
def putDown (before after : FileTree) : IO Unit := do
  makeDirectories before after
  for (place, item) in newItems before after do
    if let .file content := item then
      let draft := fileName place ++ ".new"
      IO.FS.writeBinFile draft ⟨content.toArray⟩
      IO.FS.rename draft (fileName place)
  for (place, _) in before.items do
    if (after.at? place).isNone then IO.FS.removeFile (fileName place)

/-- Takes a step over the files of a session. One that changes them is taken while no other run
holds the lock of the history. -/
def overFiles (s : Session) (step : Session → α × Session) : IO (α × Session) := do
  let paths := s.history.storage.paths s.history.key
  let attempt : IO (FileTree × FileTree × α × Session) := do
    let before ← lookUp paths
    let history := { s.history with storage := s.history.storage.withTree before }
    let (answer, s) := step { s with history }
    return (before, s.history.storage.tree?.getD before, answer, s)
  let (before, after, answer) ← attempt
  if after = before then return answer
  makeDirectories before after
  let lockPlace := (paths.getLast?.bind (·.places.getLast?)).getD []
  let lock ← try
      let lock ← IO.FS.Handle.mk (fileName lockPlace) .append
      lock.lock
      pure (some lock)
    catch _ => pure none
  let (before, after, answer) ← attempt
  putDown before after
  if let some lock := lock then lock.unlock
  return answer

/-! ### The console -/

/-- The next line of an input, with its line feed. -/
partial def nextLine (input : IO.FS.Stream) (line : Bytes) : IO Bytes := do
  let bytes := (← input.read 1).toList
  if bytes.isEmpty || bytes = [Console.lineFeed] then return line ++ bytes
  nextLine input (line ++ bytes)

/-- Answers lines until there are no more or the session is quit. -/
partial def answerLines (s : Session) : IO Console.Ending := do
  let input ← nextLine (← IO.getStdin) []
  if input.isEmpty then return .exhausted
  let now ← clock
  let ((output, ending), s) ← overFiles s fun s =>
    let outcome := Console.runLines now s (Console.lines input)
    ((outcome.output, outcome.ending), outcome.session)
  IO.print output
  (← IO.getStdout).flush
  match ending with
  | .exhausted => answerLines s
  | ending => return ending

/-! ### A run -/

/-- Prints what a run still has to say, and gives its exit code. -/
def report (outcome : Outcome) : IO UInt32 := do
  IO.print outcome.output
  if let some error := outcome.error then IO.eprintln ("Error: " ++ error)
  return outcome.exitCode

def carryOut (task : CommandLine.Task) : IO UInt32 := do
  match task.command with
  | .repl =>
    IO.print (Console.screen task.session)
    (← IO.getStdout).flush
    report (.ofEnding "" (← answerLines task.session))
  | _ =>
    let now ← clock
    let (outcome, _) ← overFiles task.session fun session =>
      { task with session }.perform now []
    report outcome

def run (args : List Text) : IO UInt32 := do
  match Invocation.ofArguments args with
  | .error .misuse =>
    IO.eprint usage
    report Halt.misuse.outcome
  | .error halt => report halt.outcome
  | .ok inv =>
    let env ← surroundings
    let tree ← lookUp ((configFile? env inv).map (Path.ofText env.workDir)).toList
    match prepare env tree inv with
    | .error outcome => report outcome
    | .ok task => carryOut task

end KeypadCalc.Program

def main (args : List String) : IO UInt32 := do
  try KeypadCalc.Program.run (args.map String.toList)
  catch e =>
    IO.eprintln ("Error: " ++ toString e)
    return 1
