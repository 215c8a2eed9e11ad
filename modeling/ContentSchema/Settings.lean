import ContentSchema.Engine
import ContentSchema.FileTree

/-!
# Settings

What a settings file says: where the schemas and the stored records are, how deep relations are
followed, and what is logged.  Paths are templates until the file is loaded.
-/

namespace ContentSchema

structure LogSettings where
  level : String := "info"
  fileLevel : Option String := none
  file : Option String := none
deriving DecidableEq, Repr

structure Settings where
  /-- The file the settings come from. -/
  source : String
  schemaDir : String
  records : Option String
  maxDepth : Nat
  logging : LogSettings
deriving DecidableEq, Repr

inductive SettingsError
  | notFound (path : String)
  | unreadable (path : String) (cause : FileError)
  | malformed (path : String)
  | badVersion (version : Nat)
  /-- A path names a variable that is not set. -/
  | unsetVariable
  | invalidDepth
deriving DecidableEq, Repr

namespace Settings

/-- The only version there is. -/
def currentVersion : Nat := 1

end Settings

/-- What is said of a text that can not be read. -/
def malformedDetail : String := "malformed document"

def SettingsError.message : SettingsError → String
  | .notFound path => "config file not found at " ++ path
  | .unreadable path cause => "failed to read config file " ++ path ++ ": " ++ cause.message
  | .malformed path => "failed to parse TOML in " ++ path ++ ": " ++ malformedDetail
  | .badVersion version =>
    "version " ++ String.ofList (Nat.toDigits 10 version) ++ " is unsupported (expected 1)"
  | .unsetVariable => "home directory not available to expand '~'"
  | .invalidDepth => "population.max_depth must be at least 1"

end ContentSchema
