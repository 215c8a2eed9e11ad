import ContentSchema.Engine
import ContentSchema.ErrorMap

/-!
# Passes over a record

Processing goes over a record twice.  The first pass sanitizes every field and brings composite
values into shape; the second one matches conditions and validates, on the record that the first
left.  A field whose conditions fail or that is refused takes its default, and its members are not
looked at.

Both passes recurse into members with fuel.  A member lies inside the value it is a member of, so
the weight of the value of a field is enough for all that the field holds, and `nestingReserve` for
what stages put into it.
-/

namespace ContentSchema

/-- What stays the same during a pass. -/
structure PassContext where
  registry : Registry
  catalog : Catalog
  source : Option RecordSource
  operation : Operation
  collection : Option String := none
  /-- The other records of the batch. -/
  batch : List Value := []

/-- What a pass changes. -/
structure PassState where
  record : Value
  errors : ErrorMap
  cache : OptionCache

/-- A part of a pass; an engine error keeps the state. -/
abbrev PassM := EStateM EngineError PassState

namespace PassContext

/-- Depth to which values that stages put into a record are followed. -/
def nestingReserve : Nat := 1024

/-- Enough fuel for all that a value holds. -/
def fuelFor (v : Value) : Nat := v.weight + nestingReserve

/-- Enough fuel for the field at a path of a record. -/
def fuelAt (record : Value) (path : Path) : Nat := fuelFor ((path.lookup record).getD .null)

def definition (c : PassContext) (kind : FieldKind) : PassM Definition :=
  match c.registry.get kind with
  | .ok d => pure d
  | .error e => throw (.schema e)

/-- Resolve options through the cache of the state. -/
def options (c : PassContext) (name : String) (d : Declaration) : PassM Options := do
  let state ← get
  let (result, cache) := state.cache.resolve c.registry name d
  set { state with cache := cache }
  match result with
  | .ok options => pure options
  | .error e => throw (.schema e)

/-- What the stages of a field see. -/
def fieldContext (c : PassContext) (path : Path) (d : Definition) (options : Options)
    (record : Value) : FieldContext where
  path := path
  kind := d.kind
  options := options
  default := d.default options
  operation := c.operation
  input := record
  collection := c.collection
  batch := c.batch
  source := c.source

end PassContext

/-- Store a value of the record. -/
def setField (path : Path) (v : Value) : PassM Unit :=
  modify fun state => { state with record := path.set v state.record }

def reportProblem (problem : Problem) : PassM Unit :=
  modify fun state => { state with errors := state.errors.insert problem.1 problem.2 }

/-! ### Sanitizing -/

/-- The value after every sanitizer of the operation; one that fails leaves it as it is. -/
def sanitizeValue (context : FieldContext) (sanitizers : List Sanitizer) (v : Value) : Value :=
  (sanitizers.filter fun s => s.filter.applies context.operation).foldl
    (fun v s =>
      match s.run context v with
      | .ok w => w
      | .error _ => v) v

namespace PassContext

/-- Bring the composite value at a path into shape; whether it can be. -/
def shapeField (c : PassContext) (path : Path) (d : Declaration) (options : Options) :
    PassM Bool := do
  let state ← get
  match path.lookup state.record with
  | none => return true
  | some v =>
    let shaped := c.catalog.shape d options path v
    setField path shaped.value
    shaped.problems.forM reportProblem
    return shaped.valid

/-- Sanitize a field that has a value or needs one; `descend` sanitizes a member. -/
def sanitizePresent (c : PassContext) (descend : Path → Declaration → PassM Unit) (path : Path)
    (d : Declaration) (definition : Definition) (options : Options) (v : Value) : PassM Unit := do
  let context := c.fieldContext path definition options (← get).record
  setField path (sanitizeValue context (definition.sanitizers ++ d.additional.sanitizers) v)
  if definition.composite then
    if ← c.shapeField path d options then
      let value := (path.lookup (← get).record).getD .null
      (c.catalog.members d value).forM fun m => descend (path ++ m.relative) m.declaration
    else setField path (definition.default options)

/-- Sanitize the field at a path and its members.  A field without a value takes its default,
unless it is required. -/
def sanitize (c : PassContext) : Nat → Path → Declaration → PassM Unit
  | 0, _, _ => return ()
  | fuel + 1, path, d => do
    let definition ← c.definition d.kind
    let options ← c.options path.name d
    match path.lookup (← get).record with
    | none =>
      if definition.required && options.flag "required" then
        c.sanitizePresent (c.sanitize fuel) path d definition options .null
      else setField path (definition.default options)
    | some v => c.sanitizePresent (c.sanitize fuel) path d definition options v

end PassContext

/-! ### Constraints on stored records -/

/-- No other record of the batch or of the collection holds the value.  Only top-level fields are
looked at, and null is never taken. -/
def checkUnique (context : FieldContext) (v : Value) : Except FieldError Unit := do
  if v.isNull || context.path.depth != 1 then return
  let name := context.name
  if context.batch.any fun record => (record.get? name).any (·.same v) then
    throw (.message Message.notUnique)
  match context.source, context.collection with
  | some source, some collection =>
    let query := (source.query collection).whereEq name v
    let query := match context.recordId? with
      | some id => query.whereNe Kinds.idField id
      | none => query
    match query.exists with
    | .ok true => throw (.message Message.notUnique)
    | .ok false => return
    | .error e => throw (.query e)
  | _, _ => return

/-- The stored record with this id holds the same value, if it holds one. -/
def checkImmutable (context : FieldContext) (v : Value) : Except FieldError Unit :=
  match context.source, context.collection, context.recordId? with
  | some source, some collection, some id =>
    let query := ((source.query collection).select [context.name]).whereEq Kinds.idField id
    match query.first with
    | .error e => .error (.query e)
    | .ok stored =>
      match stored.bind (·.get? context.name) with
      | some previous =>
        if previous.same v then .ok () else .error (.message Message.immutable)
      | none => .ok ()
  | _, _, _ => .ok ()

/-! ### Checking -/

/-- The judgement of every validator of the operation, up to the first that refuses. -/
def runValidators (context : FieldContext) (v : Value) : List Validator → Except FieldError Unit
  | [] => .ok ()
  | validator :: rest =>
    if validator.filter.applies context.operation then
      match validator.run context v with
      | .ok () => runValidators context v rest
      | .error e => .error e
    else runValidators context v rest

/-- The judgement of the validators and the constraints of a declaration. -/
def judge (context : FieldContext) (definition : Definition) (additional : Additional)
    (v : Value) : Except FieldError Unit := do
  runValidators context v (definition.validators ++ additional.validators)
  if additional.unique then checkUnique context v
  if additional.immutable && context.operation == .update then checkImmutable context v

namespace PassContext

/-- Match and validate the field at a path and its members. -/
def check (c : PassContext) : Nat → Path → Declaration → PassM Unit
  | 0, _, _ => return ()
  | fuel + 1, path, d => do
    let definition ← c.definition d.kind
    let options ← c.options path.name d
    let record := (← get).record
    match path.lookup record with
    | none => return ()
    | some v =>
      let context := c.fieldContext path definition options record
      match d.additional.logic.mapM (definition.matcher context) with
      | .error e => throw (.logic e)
      | .ok (some (.skip reset)) => setField path reset
      | .ok _ =>
        match judge context definition d.additional v with
        | .error (.engine e) => throw e
        | .error e => do
          reportProblem (path, e.messageText)
          setField path (definition.default options)
        | .ok () =>
          if definition.composite then
            (c.catalog.members d v).forM fun m => check c fuel (path ++ m.relative) m.declaration

/-! ### Records -/

/-- The declared fields that take part: an update leaves out those the record lacks. -/
def fieldsFor (c : PassContext) (collection : Collection) (record : Value) :
    List (Path × Declaration) :=
  (collection.fields.map fun (name, d) => (Path.root.child name, d)).filter fun (path, _) =>
    c.operation != .update || (path.lookup record).isSome

/-- Drop undeclared members and sanitize every field; whether the record is an object at all. -/
def sanitizeRecord (c : PassContext) (collection : Collection) : PassM Bool := do
  let state ← get
  match state.record with
  | .object ms =>
    let keep := fun key => key == Kinds.idField || collection.declares key
    let (kept, problems) := prune .root keep ms
    set { state with record := .object kept }
    problems.forM reportProblem
    (c.fieldsFor collection (.object kept)).forM fun (path, d) =>
      c.sanitize (fuelAt state.record path) path d
    return true
  | _ =>
    reportProblem (.root, Message.invalidInputType)
    return false

/-- Match and validate every field of a sanitized record. -/
def checkRecord (c : PassContext) (collection : Collection) : PassM Unit := do
  let record := (← get).record
  (c.fieldsFor collection record).forM fun (path, d) => c.check (fuelAt record path) path d

end PassContext

end ContentSchema
