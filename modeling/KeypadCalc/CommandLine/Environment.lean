import KeypadCalc.Storage.FileTree

/-! The surroundings of a run: the working directory and the directories of the user. Settings and
data have a directory each, given as an absolute path or else found in the home directory. -/

namespace KeypadCalc.CommandLine

/-- Where a run takes place, and the values of the variables that name directories of the user. -/
structure Environment where
  workDir : Place
  home : Option Text
  configHome : Option Text
  dataHome : Option Text
deriving DecidableEq

namespace Environment

/-- A text as part of a directory. -/
def inside (dir name : Text) : Text :=
  if dir.getLast? = some '/' then dir ++ name else dir ++ '/' :: name

/-- The directory that a variable gives, which must be an absolute path, or else the one with a
given name in the home directory. -/
def userDir? (env : Environment) (given : Option Text) (name : Text) : Option Text :=
  match given with
  | some ('/' :: dir) => some ('/' :: dir)
  | _ => (env.home.filter (!·.isEmpty)).map (inside · name)

/-- The file that holds the settings if no other is given. -/
def configFile? (env : Environment) : Option Text :=
  (env.userDir? env.configHome ".config".toList).map
    (inside · "pocketcalc/config.toml".toList)

/-- The directory that holds the history if no other is given. -/
def dataDir? (env : Environment) : Option Text :=
  (env.userDir? env.dataHome ".local/share".toList).map (inside · "pocketcalc".toList)

end Environment

end KeypadCalc.CommandLine
