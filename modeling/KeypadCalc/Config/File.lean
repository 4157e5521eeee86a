import KeypadCalc.Config

/-! Settings from a file. A file that is missing asks for the defaults. -/

namespace KeypadCalc

inductive LoadError
  | unreadable (file : Text)
  | invalid (file : Text) (cause : ConfigError)
deriving DecidableEq

def LoadError.message : LoadError → String
  | unreadable file => "Failed to read config file " ++ String.ofList file
  | invalid file cause => "Invalid config file " ++ String.ofList file ++ ": " ++ cause.message

/-- The settings from the file that `file` names for someone who works in `workDir`. -/
def Config.load (tree : FileTree) (workDir : Place) (file : Text) : Except LoadError Config :=
  match tree.item? (Path.ofText workDir file) with
  | none => .ok {}
  | some .directory => .error (.unreadable file)
  | some (.file content) =>
    match Utf8.decode? content with
    | none => .error (.unreadable file)
    | some t =>
      match Config.parse t with
      | .ok c => .ok c
      | .error cause => .error (.invalid file cause)

end KeypadCalc
