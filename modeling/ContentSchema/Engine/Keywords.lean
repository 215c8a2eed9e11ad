import ContentSchema.Engine

/-!
# Keywords

The words under which a value is found: those of a plain field, or those of all members of a
composite value one after the other.
-/

namespace ContentSchema

namespace Keywords

/-- Trim every part and put single spaces between those that are not empty. -/
def join (parts : List String) : String :=
  Text.join " " ((parts.map Text.trim).filter (· ≠ ""))

end Keywords

/-- A computation that resolves options. -/
abbrev ResolveM := EStateM EngineError OptionCache

namespace Engine

/-- Run a computation that resolves options. -/
def runResolve {α : Type} (e : Engine) (m : ResolveM α) : Except EngineError α × Engine :=
  match m e.cache with
  | .ok a cache => (.ok a, { e with cache := cache })
  | .error err cache => (.error err, { e with cache := cache })

/-- The options of a declaration through the cache. -/
def cachedOptions (e : Engine) (name : String) (d : Declaration) : ResolveM Options := do
  let (result, cache) := (← get).resolve e.registry name d
  set cache
  match result with
  | .ok options => pure options
  | .error err => throw (.schema err)

/-- The keywords of a value.  Members lie inside it, so its weight is enough fuel. -/
def keywordsOf (e : Engine) : Nat → Path → Declaration → Value → ResolveM String
  | 0, _, _, _ => return ""
  | fuel + 1, path, d, v => do
    let definition ← match e.definition d.kind with
      | .ok definition => pure definition
      | .error err => throw err
    if definition.composite then
      let parts ← (e.catalog.members d v).filterMapM fun m =>
        (m.relative.lookup v).mapM (e.keywordsOf fuel (path ++ m.relative) m.declaration)
      return Keywords.join parts
    else
      return definition.keywords (← e.cachedOptions path.name d) v

/-- The keywords of a field value. -/
def extractKeywords (e : Engine) (path : Path) (d : Declaration) (v : Value) :
    Except EngineError String × Engine :=
  e.runResolve (e.keywordsOf (v.weight + 1) path d v)

/-- The keywords of the search fields of a record. -/
def extractRecordKeywords (e : Engine) (name : String) (record : Value) :
    Except EngineError String × Engine :=
  match e.collection name with
  | .error err => (.error err, e)
  | .ok collection =>
    e.runResolve do
      let names := collection.search.getD (Entries.keys collection.fields)
      let parts ← names.filterMapM fun name =>
        match Entries.get? name collection.fields, record.get? name with
        | some d, some v => some <$> e.keywordsOf (v.weight + 1) (Path.root.child name) d v
        | _, _ => pure none
      return Keywords.join parts

end Engine

end ContentSchema
