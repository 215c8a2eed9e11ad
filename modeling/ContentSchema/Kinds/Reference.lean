import ContentSchema.Kinds.Check
import ContentSchema.Kinds.Choice

/-!
# References to records

A reference holds the id of a record of another collection, a list of references several.  Ids are
stored as a JSON text.  On reading, references are replaced by the records they name, reduced to
the option `fields` and the id; with the option `populate` those records are populated in turn.
-/

namespace ContentSchema.Kinds

/-- The member that identifies a record. -/
def idField : String := "id"

def recordNotFound : String := "The referenced record does not exist"

def duplicateRecords : String := "The same record is referenced more than once"

/-! ### Ids -/

mutual

/-- A numeral becomes a number, and an object with an id becomes what its id becomes. -/
def toId (v : Value) : Value :=
  match v with
  | .string s => ((Text.readNatural? (Text.trim s)).map fun n => Value.ofInt n).getD v
  | .object ms => (memberToId? ms).getD v
  | v => v

/-- What the member `id` becomes, if there is one. -/
def memberToId? : List (String × Value) → Option Value
  | [] => none
  | (key, v) :: rest => if key = idField then some (toId v) else memberToId? rest

end

def isIdList : Value → Bool
  | .list items => items.all (·.id?.isSome)
  | _ => false

/-- A list becomes the JSON text of the texts of its items. -/
def serializeIds : Value → Value
  | .list items =>
    .string (Json.text (.list (items.map fun v =>
      match v with
      | .string s => .string s
      | v => .string (Json.text v))))
  | v => v

/-- A JSON text of a list becomes the list of its ids. -/
def deserializeIds (v : Value) : Value :=
  match v with
  | .string s =>
    match Json.parseValue? s with
    | some (.list items) => .list (items.map toId)
    | _ => v
  | v => v

def idCodec : Codec := ⟨serializeIds, deserializeIds⟩

/-! ### Existence -/

/-- A query on the related collection, when there is a source. -/
def relatedQuery? (source : Option RecordSource) (options : Options) : Option Query := do
  some ((← source).query (← options.string? "collection"))

/-- The referenced record exists. -/
def recordExistsCheck : Validator where
  run context v :=
    match v.id?, relatedQuery? context.source context.options with
    | some id, some query =>
      match (query.whereEq idField (.ofInt id)).exists with
      | .ok true => .ok ()
      | .ok false => .error (.message recordNotFound)
      | .error e => .error (.query e)
    | _, _ => .ok ()

/-- Every referenced record exists. -/
def recordsExistCheck : Validator where
  run context v :=
    match v.items.filter (·.id?.isSome), relatedQuery? context.source context.options with
    | id :: ids, some query =>
      match (query.whereIn idField (id :: ids)).count with
      | .ok count => ensure (count == ids.length + 1) recordNotFound
      | .error e => .error (.query e)
    | _, _ => .ok ()

/-! ### Population -/

/-- The query for related records, reduced to the wanted members and the id. -/
def wantedQuery (source : Option RecordSource) (options : Options) : Except FieldError Query :=
  match source, options.string? "collection" with
  | none, _ => .error (.message "no query capability")
  | some _, none => .error (.message "relation without a collection")
  | some source, some collection =>
    let names := (options.strings? "fields").getD []
    let names := if names.contains idField then names else idField :: names
    .ok (((source.query collection).select names).populate (options.flag "populate"))

/-- A related record as it is read, populated when the query says so. -/
def finish (context : PopulateContext) (query : Query) (record : Value) :
    PopulationM (Except FieldError Value) :=
  if query.request.populate then do
    match ← context.populateRecord query.request.collection record with
    | .ok populated => return .ok populated
    | .error e => return .error (.engine e)
  else return .ok record

/-- The related record of an id, or null. -/
def populateId (context : PopulateContext) (v : Value) : PopulationM (Except FieldError Value) :=
  match v.id? with
  | none => return .ok .null
  | some id =>
    match wantedQuery context.source context.options with
    | .error e => return .error e
    | .ok query =>
      match (query.whereEq idField (.ofInt id)).first with
      | .error e => return .error (.query e)
      | .ok none => return .ok .null
      | .ok (some record) => finish context query record

/-- The related records of ids among those fetched, in the order of the ids. -/
def finishAll (context : PopulateContext) (query : Query) (fetched : List Value) :
    List Nat → PopulationM (Except FieldError (List Value))
  | [] => return .ok []
  | id :: ids =>
    match fetched.find? fun record => (record.get? idField).bind Value.id? == some id with
    | none => finishAll context query fetched ids
    | some record => do
      match ← finish context query record with
      | .error e => return .error e
      | .ok populated =>
        match ← finishAll context query fetched ids with
        | .error e => return .error e
        | .ok others => return .ok (populated :: others)

/-- The related records of a list of ids; ids without a record are left out. -/
def populateIds (context : PopulateContext) (v : Value) : PopulationM (Except FieldError Value) :=
  match v.items.filterMap Value.id? with
  | [] => return .ok (.list [])
  | ids =>
    match wantedQuery context.source context.options with
    | .error e => return .error e
    | .ok query =>
      match (query.whereIn idField (ids.map fun id : Nat => Value.ofInt id)).all with
      | .error e => return .error (.query e)
      | .ok fetched => do
        match ← finishAll context query fetched ids with
        | .error e => return .error e
        | .ok records => return .ok (.list records)

/-! ### Kinds -/

def referenceOptions : List (String × OptionSpec) :=
  [requiredOption, ("collection", { kind := .string, required := true }),
    withDefault "fields" .array (.list [.string idField]), ("populate", flagOption)]

def record : Specification where
  kind := .record
  type := .full ⟨.number, "number | null", .integer⟩
  options := referenceOptions
  sanitizers := [change toId]
  validators := [requiredCheck, typeCheck (·.id?.isSome), recordExistsCheck]
  population := some ⟨⟨.object, "Record<string, any> | null", .text⟩, .null, populateId⟩

def records : Specification where
  kind := .records
  type := .full ⟨.object, "number[]", .text⟩
  default := some fun _ => .list []
  options := referenceOptions ++ [optional "min" .number, optional "max" .number]
  sanitizers := [decoded Value.isList, change fun v =>
    match v with
    | .list items => .list (items.map toId)
    | v => v]
  validators := [requiredCheck, typeCheck isIdList,
    check fun _ v => ensure (allDistinct (v.items.filterMap Value.id?)) duplicateRecords,
    entryCountCheck, recordsExistCheck]
  population := some ⟨⟨.object, "Record<string, any>[]", .text⟩, .list [], populateIds⟩
  codec := some idCodec

end ContentSchema.Kinds
