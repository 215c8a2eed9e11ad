import ContentSchema.Engine.Pass

/-!
# Processing

Process one field, one record or a batch of records.  The answer is the error map or the engine
error that ended the processing; either way the records come back as far as they got.
-/

namespace ContentSchema

/-- The outcome of processing records of type `α`. -/
structure Processed (α : Type) where
  result : Except EngineError ErrorMap
  records : α
  engine : Engine

namespace Engine

def passContext (e : Engine) (operation : Operation) (collection : Option String := none)
    (batch : List Value := []) : PassContext :=
  ⟨e.registry, e.catalog, e.source, operation, collection, batch⟩

/-- Run a pass on a record, starting from the errors found before. -/
def runPass {α : Type} (e : Engine) (pass : PassM α) (record : Value) (errors : ErrorMap) :
    Except EngineError α × PassState :=
  match pass ⟨record, errors, e.cache⟩ with
  | .ok a state => (.ok a, state)
  | .error err state => (.error err, state)

/-- The outcome of a pass that began with no errors. -/
def processed (e : Engine) (record : Value) (pass : PassM Unit) : Processed Value :=
  let (result, state) := e.runPass pass record .empty
  ⟨result.map fun _ => state.errors, state.record, { e with cache := state.cache }⟩

/-- Sanitize, match and validate the field at `path` of a record. -/
def process (e : Engine) (path : Path) (d : Declaration) (record : Value) (operation : Operation) :
    Processed Value :=
  let c := e.passContext operation
  e.processed record do
    c.sanitize (PassContext.fuelFor record) path d
    c.check (PassContext.fuelFor (← get).record) path d

/-- Process every field of a record of a collection; `batch` are the records submitted with it. -/
def processRecord (e : Engine) (name : String) (record : Value) (operation : Operation)
    (batch : List Value) : Processed Value :=
  match e.collection name with
  | .error err => ⟨.error err, record, e⟩
  | .ok collection =>
    let c := e.passContext operation name batch
    e.processed record do
      if ← c.sanitizeRecord collection then c.checkRecord collection

/-! ### Batches -/

/-- Each record with all others in order. -/
def siblings (records : List Value) : List (List Value) :=
  (List.range records.length).map fun i => records.eraseIdx i

/-- A record of a batch after its first pass. -/
structure Sanitized where
  record : Value
  errors : ErrorMap
  /-- The record is an object. -/
  accepted : Bool

/-- The first pass over records with their siblings, up to the first engine error. -/
def sanitizeBatch (e : Engine) (name : String) (collection : Collection) (operation : Operation) :
    List (Value × List Value) → Except EngineError (List Sanitized) × List Value × Engine
  | [] => (.ok [], [], e)
  | (record, batch) :: rest =>
    let c := e.passContext operation name batch
    let (result, state) := e.runPass (c.sanitizeRecord collection) record .empty
    let e := { e with cache := state.cache }
    match result with
    | .error err => (.error err, state.record :: rest.map (·.1), e)
    | .ok accepted =>
      let (others, records, e) := e.sanitizeBatch name collection operation rest
      (others.map (⟨state.record, state.errors, accepted⟩ :: ·), state.record :: records, e)

/-- The second pass over sanitized records with their siblings.  The errors of the record at index
`i` are collected below `i`. -/
def checkBatch (e : Engine) (name : String) (collection : Collection) (operation : Operation) :
    Nat → ErrorMap → List (Sanitized × List Value) → Processed (List Value)
  | _, errors, [] => ⟨.ok errors, [], e⟩
  | i, errors, (sanitized, batch) :: rest =>
    let c := e.passContext operation name batch
    let pass : PassM Unit := if sanitized.accepted then c.checkRecord collection else pure ()
    let (result, state) := e.runPass pass sanitized.record sanitized.errors
    let e := { e with cache := state.cache }
    match result with
    | .error err => ⟨.error err, state.record :: rest.map (·.1.record), e⟩
    | .ok () =>
      let errors := errors.merge (Nat.repr i) state.errors
      let others := e.checkBatch name collection operation (i + 1) errors rest
      { others with records := state.record :: others.records }

/-- Process records together.  Every record is sanitized before any is checked, so that they are
compared as they will be stored. -/
def processBatch (e : Engine) (name : String) (records : List Value) (operation : Operation) :
    Processed (List Value) :=
  match e.collection name with
  | .error err => ⟨.error err, records, e⟩
  | .ok collection =>
    match e.sanitizeBatch name collection operation (records.zip (siblings records)) with
    | (.error err, records, e) => ⟨.error err, records, e⟩
    | (.ok sanitized, records, e) =>
      e.checkBatch name collection operation 0 .empty (sanitized.zip (siblings records))

end Engine

end ContentSchema
