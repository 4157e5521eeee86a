import KeypadCalc.Console.Command
import KeypadCalc.History.Listing
import KeypadCalc.Session

/-! The console: lines of bytes go in, and after each line the screen or the answer to a command
comes out. -/

namespace KeypadCalc.Console

def screen (s : Session) : String :=
  let expression := if s.keypad.expression = [] then [' '] else s.keypad.expression
  String.ofList expression ++ "\n= " ++ String.ofList s.keypad.display.result ++ "\n"

/-- Presses the key that a character of a line stands for, and gives what is said about it. -/
def pressChar (now : Int64) (s : Session) (c : Char) : Session × String :=
  if c = '=' then
    match s.commit now with
    | (.error e, s) => (s, "Invalid expression: " ++ e.message ++ "\n")
    | (.ok _, s) => (s, "")
  else (s.input c, "")

def pressAll (now : Int64) (s : Session) : Text → Session × String
  | [] => (s, "")
  | c :: rest =>
    let (s, said) := pressChar now s c
    let (s, more) := pressAll now s rest
    (s, said ++ more)

/-- What a line leads to: the session after it and the output, and whether to go on. -/
structure Reply where
  session : Session
  output : String
  goesOn : Bool

def Reply.onScreen (s : Session) (said : String) : Reply := ⟨s, said ++ screen s, true⟩

/-- Carries out a command at the time `now`. -/
def execute (now : Int64) (s : Session) : Command → Reply
  | .keys t => let (s, said) := pressAll now s t; .onScreen s said
  | .clear => .onScreen (s.press now .clear).2 ""
  | .back => .onScreen (s.press now .backspace).2 ""
  | .percent => .onScreen (s.press now .percent).2 ""
  | .history => ⟨s, Entry.listing s.entries, true⟩
  | .use n =>
    match Entry.withNumber? s.entries n with
    | some e => .onScreen (s.recallEntry e) ""
    | none => .onScreen s ("No history entry " ++ toString n ++ "\n")
  | .clearHistory => ⟨s.clearHistory, "History cleared\n", true⟩
  | .quit => ⟨s, "", false⟩
  | .unknown line => ⟨s, "Unknown command " ++ String.ofList line ++ "\n", true⟩

def lineFeed : UInt8 := 10

/-- A line without the carriage return that may stand before its line feed. -/
def withoutReturn (line : Bytes) : Bytes := if line.getLast? = some 13 then line.dropLast else line

/-- The lines of an input. The last one need not end in a line feed. -/
def lines (input : Bytes) : List Bytes :=
  match _h : input.dropWhile (· != lineFeed) with
  | [] => if input.isEmpty then [] else [input]
  | _ :: rest => withoutReturn (input.takeWhile (· != lineFeed)) :: lines rest
termination_by input.length
decreasing_by
  have h := (List.dropWhile_sublist (· != lineFeed) (l := input)).length_le
  rw [_h] at h
  exact h

/-- How a run came to its end: there were no more lines, the session was quit, or a line was no
text. -/
inductive Ending
  | exhausted
  | quit
  | invalidText
deriving DecidableEq, Repr

structure Outcome where
  session : Session
  output : String
  ending : Ending

/-- Works off lines until they end, the session is quit, or a line is no text. -/
def runLines (now : Int64) (s : Session) : List Bytes → Outcome
  | [] => ⟨s, "", .exhausted⟩
  | line :: rest =>
    match Utf8.decode? line with
    | none => ⟨s, "", .invalidText⟩
    | some t =>
      let reply := execute now s (Command.ofLine t)
      if reply.goesOn then
        let after := runLines now reply.session rest
        { after with output := reply.output ++ after.output }
      else ⟨reply.session, reply.output, .quit⟩

/-- Shows the screen and works off an input. -/
def run (now : Int64) (s : Session) (input : Bytes) : Outcome :=
  let outcome := runLines now s (lines input)
  { outcome with output := screen s ++ outcome.output }

end KeypadCalc.Console
