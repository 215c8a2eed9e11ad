import ContentSchema.Number.Total
import ContentSchema.Query

/-!
# Record stores

Records kept by collection in the order of their insertion, and the record source they make.
-/

namespace ContentSchema

structure Store where
  collections : Entries (List Value)
deriving DecidableEq, Inhabited

namespace Store

def empty : Store := ⟨[]⟩

/-- Append records to a collection, which is made if it is new. -/
def add (store : Store) (collection : String) (records : List Value) : Store :=
  ⟨store.collections.put collection ((store.collections.get? collection).getD [] ++ records)⟩

/-- Append one record. -/
def insert (store : Store) (collection : String) (record : Value) : Store :=
  store.add collection [record]

/-- Total number of records. -/
def size (store : Store) : Nat := total (store.collections.map (·.2.length))

def isEmpty (store : Store) : Bool := store.size == 0

/-- The collections of an object of record lists. -/
def addAll (store : Store) : List (String × Value) → Except QueryError Store
  | [] => .ok store
  | (collection, .list records) :: rest => addAll (store.add collection records) rest
  | (collection, _) :: _ =>
    .error (.source ("records of '" ++ collection ++ "' must be an array"))

/-- Read a store from an object that maps collections to lists of records. -/
def ofValue : Value → Except QueryError Store
  | .object ms => addAll empty ms
  | _ => .error (.source "record fixture must be an object")

/-- The named members a record has; the whole record when none are named. -/
def project (record : Value) (select : List String) : Value :=
  if select.isEmpty then record
  else .object (Entries.sorted (select.filterMap fun name => (record.get? name).map (name, ·)))

/-- The records of a collection that pass every filter, cut at the limit and projected. -/
def fetch (store : Store) (request : Request) : Except QueryError (List Value) :=
  match store.collections.get? request.collection with
  | none => .error (.unknownCollection request.collection)
  | some records =>
    let found := records.filter fun record => request.filters.all (·.accepts record)
    let kept := match request.limit with
      | some n => found.take n
      | none => found
    .ok (kept.map (project · request.select))

/-- The store as a record source. -/
def source (store : Store) : RecordSource := ⟨store.fetch⟩

end Store

/-- A record source that fails every request. -/
def RecordSource.failing (detail : String) : RecordSource := ⟨fun _ => .error (.source detail)⟩

end ContentSchema
