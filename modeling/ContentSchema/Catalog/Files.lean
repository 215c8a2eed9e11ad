import ContentSchema.Catalog
import ContentSchema.Declaration.Reader
import ContentSchema.Host
import ContentSchema.Json.Reader
import ContentSchema.Settings
import ContentSchema.Yaml.Reader

/-!
# Schema files

A schema directory holds one collection in each file of `collections`, and one block in each file
of `blocks`.  Files are YAML or JSON, as their suffix says.  A schema without a name takes that of
its file.
-/

namespace ContentSchema

inductive SchemaKind
  | collection
  | block
deriving DecidableEq, Repr

namespace SchemaKind

def name : SchemaKind → String
  | .collection => "collection"
  | .block => "block"

/-- The directory of the files of a kind. -/
def directory : SchemaKind → String
  | .collection => "collections"
  | .block => "blocks"

end SchemaKind

structure SchemaFile where
  kind : SchemaKind
  /-- The name of the file without its suffix. -/
  name : String
  path : String
  json : Bool
deriving DecidableEq, Repr

/-- Why no catalog can be made from files. -/
inductive LoadError
  | unreadable (path : String) (cause : FileError)
  | malformed (path : String)
  | catalog (e : CatalogError)
deriving DecidableEq, Repr

def LoadError.message : LoadError → String
  | .unreadable path cause => "failed to read schema file " ++ path ++ ": " ++ cause.message
  | .malformed path => "failed to parse schema file " ++ path ++ ": " ++ malformedDetail
  | .catalog e => e.message

namespace SchemaFile

/-- The schema file at a path, if its suffix makes it one. -/
def ofPath? (kind : SchemaKind) (path : String) : Option SchemaFile :=
  match FilePath.splitName ((FilePath.parts path).getLastD "") with
  | (name, some suffix) =>
    if suffix = "json" then some ⟨kind, name, path, true⟩
    else if suffix = "yaml" ∨ suffix = "yml" then some ⟨kind, name, path, false⟩
    else none
  | (_, none) => none

/-- The order of names, and of paths among files of one name. -/
def le (a b : SchemaFile) : Bool :=
  if a.name = b.name then decide (a.path ≤ b.path) else decide (a.name ≤ b.name)

variable {m : Type → Type} [Monad m] [Host m]

/-- The schema files of a kind, by name. -/
def list (root : String) (kind : SchemaKind) : m (List SchemaFile) := do
  let paths ← Host.filesIn (FilePath.join root kind.directory)
  return (paths.filterMap (ofPath? kind)).mergeSort le

/-- Read one file with the reader of its kind. -/
def readWith {α : Type} (read : (listed : Bool) → Document → Read.Result α) (file : SchemaFile) :
    ExceptT LoadError m α := do
  match ← Host.read file.path with
  | .error cause => throw (.unreadable file.path cause)
  | .ok text =>
    let parsed := if file.json then Json.parse? text else Yaml.parse? text
    match parsed.map (read file.json) with
    | some (.ok a) => return a
    | _ => throw (.malformed file.path)

def readCollection (file : SchemaFile) : ExceptT LoadError m Collection := do
  let c ← file.readWith Read.collection
  return if c.name = "" then { c with name := file.name } else c

def readBlock (file : SchemaFile) : ExceptT LoadError m Block := do
  let b ← file.readWith Read.block
  return if b.name = "" then { b with name := file.name } else b

end SchemaFile

namespace Catalog

variable {m : Type → Type} [Monad m] [Host m]

/-- Lift a result of the catalog. -/
def orLoadError {α : Type} : Except CatalogError α → ExceptT LoadError m α
  | .ok a => return a
  | .error e => throw (.catalog e)

/-- The catalog of given files: the blocks are read and registered before the collections. -/
def ofFiles (collections blocks : List SchemaFile) : ExceptT LoadError m Catalog := do
  let blocks ← blocks.mapM SchemaFile.readBlock
  let catalog ← orLoadError (blocks.foldlM registerBlock empty)
  let collections ← collections.mapM SchemaFile.readCollection
  let catalog ← orLoadError (collections.foldlM registerCollection catalog)
  orLoadError catalog.checkSlots
  return catalog

/-- The catalog of a schema directory, which is empty if there is no such directory. -/
def load (root : String) : ExceptT LoadError m Catalog := do
  let collections ← SchemaFile.list root .collection
  let blocks ← SchemaFile.list root .block
  ofFiles collections blocks

end Catalog

end ContentSchema
