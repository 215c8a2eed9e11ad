import ContentSchema.CommandLine

/-!
# The program

Runs a command on the machine it is started on.
-/

namespace ContentSchema

/-- The cause of a failure to use a file. -/
def FileError.ofFailure : IO.Error → FileError
  | .inappropriateType .. => .isADirectory
  | .resourceExhausted .. => .nameTooLong
  | _ => .notFound

/-- The answer of an action on a file, or the cause of its failure. -/
def attempt {α : Type} (action : IO α) : IO (Except FileError α) := do
  match ← action.toBaseIO with
  | .ok a => return .ok a
  | .error e => return .error (FileError.ofFailure e)

instance : Host IO where
  getVariable? name := IO.getEnv name
  isPresent path := do
    match ← attempt (IO.FS.realPath path) with
    | .ok place => place.pathExists
    | .error _ => return false
  read path := do
    match ← attempt (IO.FS.readBinFile path) with
    | .error e => return .error e
    | .ok bytes =>
      match String.fromUTF8? bytes with
      | some text => return .ok text
      | none => return .error .notText
  filesIn path := do
    match ← attempt (IO.FS.realPath path) with
    | .error _ => return []
    | .ok place =>
      if !(← place.isDir) then return []
      let mut found := []
      for entry in ← place.readDir do
        if !(← entry.path.isDir) then found := entry.path.toString :: found
      return found
  create path := attempt (IO.FS.writeFile path "")

end ContentSchema

def main (arguments : List String) : IO UInt32 := do
  let outcome ← (ContentSchema.CommandLine.run arguments : IO ContentSchema.Outcome)
  (← IO.getStdout).putStr outcome.output
  (← IO.getStderr).putStr outcome.errors
  return outcome.code.toUInt32
