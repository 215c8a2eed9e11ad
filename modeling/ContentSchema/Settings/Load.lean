import ContentSchema.Host
import ContentSchema.Settings.Reader

/-!
# Loading settings

A settings file is looked for, read, checked, and its paths are expanded.  Relative paths start
from the directory of the file.
-/

namespace ContentSchema.Settings

variable {m : Type → Type} [Monad m] [Host m]

/-- Where the settings are when nobody says where. -/
def defaultPath : m String := do
  let base ← match ← Host.getVariable? "XDG_CONFIG_HOME" with
    | some base => pure base
    | none => return FilePath.join (← Host.home) ".config/fieldkit/config.toml"
  return FilePath.join base "fieldkit/config.toml"

/-- The path of a template as seen from the directory `base`. -/
def expandPath (base template : String) : ExceptT SettingsError m String := do
  match ← Host.expand template with
  | some path => return FilePath.join base path
  | none => throw .unsetVariable

/-- Expand a path that may be missing. -/
def expandPath? (base : String) : Option String → ExceptT SettingsError m (Option String)
  | some template => return some (← expandPath base template)
  | none => return none

/-- Check a settings file and expand its paths. -/
def resolve (path : String) (file : SettingsFile) : ExceptT SettingsError m Settings := do
  if file.version ≠ currentVersion then throw (.badVersion file.version)
  if file.maxDepth = 0 then throw .invalidDepth
  let base := FilePath.parent path
  let schemaDir ← expandPath base file.schemaDir
  let records ← expandPath? base file.records
  let logFile ← expandPath? base file.logging.file
  return {
    source := path
    schemaDir := schemaDir
    records := records
    maxDepth := file.maxDepth
    logging := { file.logging with file := logFile } }

/-- Load the settings at `path`, or at the default path. -/
def load (path : Option String) : ExceptT SettingsError m Settings := do
  let path ← match path with
    | some path => pure path
    | none => defaultPath
  unless ← Host.isPresent path do throw (.notFound path)
  match ← Host.read path with
  | .error cause => throw (.unreadable path cause)
  | .ok text =>
    match SettingsFile.parse? text with
    | none => throw (.malformed path)
    | some file => resolve path file

end ContentSchema.Settings
