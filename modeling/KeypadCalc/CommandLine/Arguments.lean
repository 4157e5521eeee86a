import KeypadCalc.Text.Blank

/-! The arguments of the command line. General options may stand before the command and after it;
those after it count if both are given. At each of the two places an option may stand once. All that
follows `--` is no option. -/

namespace KeypadCalc.CommandLine

inductive Command
  | eval (expression : Text) (copy noHistory : Bool)
  | preview (expression : Text)
  | history (json : Bool)
  | clearHistory
  | repl
deriving DecidableEq, Repr

inductive Verb
  | eval
  | preview
  | history
  | clearHistory
  | repl
deriving DecidableEq, Repr

/-- The options that take no value. -/
inductive Flag
  | verbose
  | copy
  | noHistory
  | json
deriving DecidableEq, Repr

/-- The options that take a value. -/
inductive Setting
  | config
  | dataDir
deriving DecidableEq, Repr

/-- Why the arguments ask for nothing to be done: they are not understood, or only help or the
version is wanted. -/
inductive Halt
  | misuse
  | help
  | version
deriving DecidableEq, Repr

structure Given where
  flags : List Flag := []
  settings : List (Setting × Text) := []
deriving DecidableEq, Repr

/-- What has been read of the arguments: the options before the command, the command, and the
options and the expression after it. -/
structure Draft where
  before : Given := {}
  verb : Option Verb := none
  after : Given := {}
  expression : Option Text := none
deriving DecidableEq, Repr

/-- What the arguments ask for. -/
structure Invocation where
  config : Option Text
  dataDir : Option Text
  verbose : Bool
  command : Command
deriving DecidableEq, Repr

def Verb.ofName? (name : Text) : Option Verb :=
  match String.ofList name with
  | "eval" => some .eval
  | "preview" => some .preview
  | "history" => some .history
  | "clear-history" => some .clearHistory
  | "repl" => some .repl
  | _ => none

/-- The flags that may stand after a command, or before any. -/
def Flag.fits : Flag → Option Verb → Bool
  | .verbose, _ => true
  | .copy, verb | .noHistory, verb => verb == some .eval
  | .json, verb => verb == some .history

def Flag.ofName? (name : Text) : Option Flag :=
  match String.ofList name with
  | "verbose" => some .verbose
  | "copy" => some .copy
  | "no-history" => some .noHistory
  | "json" => some .json
  | _ => none

def Setting.ofName? (name : Text) : Option Setting :=
  match String.ofList name with
  | "config" => some .config
  | "data-dir" => some .dataDir
  | _ => none

/-- What the next argument is: an option, a command or its expression; the value of a setting; or,
after `--`, anything but an option and a command. -/
inductive Expected
  | option
  | value (setting : Setting)
  | operand
deriving DecidableEq, Repr

/-- The outcome of asking for help on some subjects. Help is there for one command or for all. -/
def helpOn : List Text → Halt
  | [] => .help
  | [subject] =>
    if subject = "help".toList ∨ (Verb.ofName? subject).isSome then .help else .misuse
  | _ => .misuse

namespace Draft

def given (d : Draft) : Given := if d.verb.isSome then d.after else d.before

def withGiven (d : Draft) (g : Given) : Draft :=
  if d.verb.isSome then { d with after := g } else { d with before := g }

/-- Sets a flag, which must be known here and not be set yet. -/
def setFlag (d : Draft) (flag : Flag) : Except Halt Draft :=
  if flag.fits d.verb && !d.given.flags.contains flag then
    .ok (d.withGiven { d.given with flags := flag :: d.given.flags })
  else .error .misuse

/-- Gives a setting its value, which must not be empty; it must not have one yet. -/
def give (d : Draft) (setting : Setting) (value : Text) : Except Halt Draft :=
  if value.isEmpty || (d.given.settings.lookup setting).isSome then .error .misuse
  else .ok (d.withGiven { d.given with settings := (setting, value) :: d.given.settings })

/-- Takes an argument that is no option: the name of the command, or its expression. -/
def take (d : Draft) (arg : Text) : Except Halt Draft :=
  match d.verb with
  | some .eval | some .preview =>
    if d.expression.isNone then .ok { d with expression := some arg } else .error .misuse
  | _ => .error .misuse

/-- Sets the flags that stand for the letters after a hyphen. -/
def setLetters (d : Draft) : Text → Except Halt Draft
  | [] => .ok d
  | 'v' :: rest => d.setFlag .verbose >>= fun d => d.setLetters rest
  | 'h' :: _ => .error .help
  | 'V' :: _ => .error (if d.verb.isNone then .version else .misuse)
  | _ => .error .misuse

/-- Takes an option without value by its long name. -/
def setLong (d : Draft) (name : Text) : Except Halt Draft :=
  if name = "help".toList then .error .help
  else if name = "version".toList ∧ d.verb.isNone then .error .version
  else match Flag.ofName? name with
    | some flag => d.setFlag flag
    | none => .error .misuse

/-- An argument that can be the value of an option that stands before it. -/
def isValue (arg : Text) : Bool := arg.head? != some '-' || arg = ['-']

/-- Takes an option by what follows its two hyphens: a name, or a name and a value after `=`. Says
what the next argument is. -/
def takeLong (d : Draft) (long : Text) : Except Halt (Draft × Expected) :=
  let name := long.takeWhile (· != '=')
  match Setting.ofName? name, long.dropWhile (· != '=') with
  | some setting, _ :: value => return (← d.give setting value, .option)
  | some setting, [] => return (d, .value setting)
  | none, [] => return (← d.setLong name, .option)
  | none, _ :: _ => throw .misuse

/-- Takes an argument where an option or a command may stand. Says what the next argument is. -/
def takeAny (d : Draft) (arg : Text) : Except Halt (Draft × Expected) :=
  match arg with
  | ['-', '-'] => return (d, .operand)
  | '-' :: '-' :: long => d.takeLong long
  | '-' :: letter :: letters => return (← d.setLetters (letter :: letters), .option)
  | arg =>
    match d.verb, Verb.ofName? arg with
    | none, some verb => return ({ d with verb := some verb }, .option)
    | _, _ => return (← d.take arg, .option)

def read (d : Draft) : Expected → List Text → Except Halt Draft
  | .value _, [] => throw .misuse
  | _, [] => return d
  | .value setting, arg :: rest =>
    if isValue arg then d.give setting arg >>= fun d => d.read .option rest else throw .misuse
  | .operand, arg :: rest => d.take arg >>= fun d => d.read .operand rest
  | .option, arg :: rest =>
    if arg = "help".toList ∧ d.verb.isNone then throw (helpOn rest)
    else d.takeAny arg >>= fun (d, expected) => d.read expected rest

def setting? (d : Draft) (setting : Setting) : Option Text :=
  (d.after.settings.lookup setting).or (d.before.settings.lookup setting)

/-- The command that has been read. Without any the console is started. -/
def command? (d : Draft) : Option Command :=
  let has (flag : Flag) := d.after.flags.contains flag
  match d.verb, d.expression with
  | some .eval, some e => some (.eval e (has .copy) (has .noHistory))
  | some .preview, some e => some (.preview e)
  | some .history, _ => some (.history (has .json))
  | some .clearHistory, _ => some .clearHistory
  | some .repl, _ | none, _ => some .repl
  | _, _ => none

end Draft

def Invocation.ofArguments (args : List Text) : Except Halt Invocation := do
  let d ← ({} : Draft).read .option args
  match d.command? with
  | none => throw .misuse
  | some command =>
    return {
      config := d.setting? .config
      dataDir := d.setting? .dataDir
      verbose := d.before.flags.contains .verbose || d.after.flags.contains .verbose
      command }

end KeypadCalc.CommandLine
