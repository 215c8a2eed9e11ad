import ContentSchema.Declaration.Reader
import ContentSchema.Settings
import ContentSchema.Toml.Reader

/-!
# Reading settings

The tables of a settings file.  Unknown keys are skipped.  A table inside may also be given as the
list of its values, of which too many do no harm.
-/

namespace ContentSchema

namespace Document

/-- A natural number of at most so many bits. -/
def natural? (bits : Nat) : Document → Option Nat
  | .number n => n.natural?.filter (· < powTwo bits)
  | _ => none

end Document

/-- A settings file as it is written. -/
structure SettingsFile where
  version : Nat
  schemaDir : String
  records : Option String
  maxDepth : Nat
  logging : LogSettings
deriving DecidableEq, Repr

namespace SettingsFile

open Read (Result require)

/-- A table by its keys or as the list of its values. -/
def tableOf {α : Type} (names : List String) (member : String → Document → α → Result α)
    (start : α) : Document → Result α
  | .list items => Read.members names true member start (.list (items.take names.length))
  | d => Read.members names true member start d

def populationMember (key : String) (d : Document) (maxDepth : Nat) : Result Nat :=
  match key with
  | "max_depth" => require (d.natural? 64)
  | _ => .ok maxDepth

def loggingMember (key : String) (d : Document) (logging : LogSettings) : Result LogSettings :=
  match key with
  | "level" => return { logging with level := ← require d.text? }
  | "file_level" => return { logging with fileLevel := some (← require d.text?) }
  | "file" => return { logging with file := some (← require d.text?) }
  | _ => .ok logging

structure Parts where
  version : Option Nat := none
  schemaDir : Option String := none
  records : Option String := none
  maxDepth : Nat := Engine.defaultMaxDepth
  logging : LogSettings := {}

def member (key : String) (d : Document) (parts : Parts) : Result Parts :=
  match key with
  | "version" => return { parts with version := some (← require (d.natural? 32)) }
  | "schema_dir" => return { parts with schemaDir := some (← require d.text?) }
  | "records" => return { parts with records := some (← require d.text?) }
  | "population" => return { parts with
      maxDepth := ← tableOf ["max_depth"] populationMember parts.maxDepth d }
  | "logging" => return { parts with
      logging := ← tableOf ["level", "file_level", "file"] loggingMember parts.logging d }
  | _ => .ok parts

def ofDocument (d : Document) : Result SettingsFile := do
  let parts ← tableOf [] member {} d
  return {
    version := ← require parts.version
    schemaDir := ← require parts.schemaDir
    records := parts.records
    maxDepth := parts.maxDepth
    logging := parts.logging }

/-- Read a settings file. -/
def parse? (text : String) : Option SettingsFile := do
  match ofDocument (← Toml.parse? text) with
  | .ok file => some file
  | .error _ => none

end SettingsFile

end ContentSchema
