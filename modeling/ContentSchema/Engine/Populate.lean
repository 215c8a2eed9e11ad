import ContentSchema.Engine.Keywords

/-!
# Population

Stored values become the values that are read: members first, then the value itself through the
populator of its declaration or of its kind.  Relations may form cycles; every call of a populator
uses up one unit of the budget of its key, which is the collection and the path, and a key without
budget gives the terminal value.

Nested calls are bounded by the budgets of the keys within reach and by the weight of the records,
so fuel for that many is not felt.  The one exception are blocks with two fields for one list index:
where their fields are a list, what one of the two populates is populated again through the other,
and that need not end.
-/

namespace ContentSchema

namespace Engine

/-- The key under which populator calls are counted. -/
def populationKey (collection : Option String) (path : Path) : String :=
  collection.getD "" ++ ":" ++ path.text

/-- The keys of a declared value and of the values inside it. -/
def valueKeys (c : Catalog) (collection : Option String) : Nat → Path → Declaration → Value →
    List String
  | 0, _, _, _ => []
  | fuel + 1, path, d, v =>
    populationKey collection path :: (c.members d v).flatMap fun m =>
      match m.relative.lookup v with
      | none => []
      | some child => valueKeys c collection fuel (path ++ m.relative) m.declaration child

/-- The keys of the declared values of a record. -/
def recordKeys (c : Catalog) (name : String) (record : Value) : List String :=
  match c.collection? name with
  | none => []
  | some collection =>
    collection.fields.flatMap fun (field, d) =>
      let path := Path.root.child field
      match path.lookup record with
      | none => []
      | some v => valueKeys c name v.weight path d v

/-- The records of a collection that may be populated, in the order of the source. -/
def storedRecords (e : Engine) (name : String) : List Value :=
  match e.source with
  | none => []
  | some source =>
    match (source.query name).all with
    | .ok records => records
    | .error _ => []

/-- The keys of all stored records of registered collections. -/
def storedKeys (e : Engine) : List String :=
  e.catalog.collectionNames.flatMap fun name =>
    (e.storedRecords name).flatMap (recordKeys e.catalog name)

/-- The total weight of the stored records of registered collections. -/
def storedWeight (e : Engine) : Nat :=
  total (e.catalog.collectionNames.map fun name => Value.weightItems (e.storedRecords name))

/-- Enough fuel to populate a value with the given keys: the budget of every key within reach, times
the nesting of the values. -/
def populationFuel (e : Engine) (keys : List String) (v : Value) : Nat :=
  (e.maxDepth * (keys ++ e.storedKeys).length + 1) * (v.weight + e.storedWeight + 2)

/-- Resolve options through the cache of a population. -/
def populationOptions (e : Engine) (name : String) (d : Declaration) :
    PopulationM (Except SchemaError Options) := do
  let state ← get
  let (result, cache) := state.cache.resolve e.registry name d
  set { state with cache := cache }
  return result

/-- What a populator leaves in the place of a value, which stays as it is if the populator fails. -/
def settle {ε : Type} (old : Value) (result : Except ε Value) : Value :=
  match result with
  | .ok populated => populated
  | .error _ => old

/-- Call a populator within its budget. -/
def callPopulator (context : PopulateContext) (population : Population) (v : Value) :
    PopulationM Value := do
  let state ← get
  let (taken, budget) := state.budget.take (populationKey context.collection context.path)
  set { state with budget := budget }
  if taken then return settle v (← population.run context v)
  else return population.terminal

/-- Populate members of a value one after the other. -/
def populateMembers (populate : Member → Value → PopulationM (Except EngineError Value)) :
    List Member → Value → PopulationM (Except EngineError Value)
  | [], v => return .ok v
  | m :: rest, v =>
    match m.relative.lookup v with
    | none => populateMembers populate rest v
    | some child => do
      match ← populate m child with
      | .error e => return .error e
      | .ok populated => populateMembers populate rest (m.relative.set populated v)

/-- Populate fields of a record one after the other. -/
def populateFields
    (populate : Path → Declaration → Value → PopulationM (Except EngineError Value)) :
    List (String × Declaration) → Value → PopulationM (Except EngineError Value)
  | [], record => return .ok record
  | (name, d) :: rest, record =>
    let path := Path.root.child name
    match path.lookup record with
    | none => populateFields populate rest record
    | some v => do
      match ← populate path d v with
      | .error e => return .error e
      | .ok populated => populateFields populate rest (path.set populated record)

mutual

/-- Populate the value of a declared field. -/
def populateValue (e : Engine) : Nat → Option String → Path → Declaration → Value →
    PopulationM (Except EngineError Value)
  | 0, _, _, _, v => return .ok v
  | fuel + 1, collection, path, d, v => do
    if d.additional.population == some false then return .ok v
    match e.registry.get d.kind with
    | .error err => return .error (.schema err)
    | .ok definition =>
      match ← e.populationOptions path.name d with
      | .error err => return .error (.schema err)
      | .ok options =>
        let members := if definition.composite then e.catalog.members d v else []
        match ← populateMembers
            (fun m => populateValue e fuel collection (path ++ m.relative) m.declaration)
            members v with
        | .error err => return .error err
        | .ok v =>
          match d.additional.populator.or definition.population with
          | none => return .ok v
          | some population =>
            let context : PopulateContext :=
              ⟨path, d.kind, options, collection, e.source, populateFieldsOf e fuel⟩
            return .ok (← callPopulator context population v)

/-- Populate the fields of a record of a collection. -/
def populateFieldsOf (e : Engine) : Nat → String → Value → PopulationM (Except EngineError Value)
  | 0, _, record => return .ok record
  | fuel + 1, name, record =>
    match e.collection name with
    | .error err => return .error err
    | .ok collection =>
      populateFields (fun path d v => populateValue e fuel name path d v) collection.fields record

end

/-- Run a population with a full budget. -/
def runPopulation (e : Engine) (m : PopulationM (Except EngineError Value)) :
    Except EngineError Value × Engine :=
  let (result, state) := m.run ⟨.ofLimit e.maxDepth, e.cache⟩
  (result, { e with cache := state.cache })

/-- Populate the value of a field, with fuel enough for it. -/
def populateField (e : Engine) (collection : Option String) (path : Path) (d : Declaration)
    (v : Value) : PopulationM (Except EngineError Value) :=
  populateValue e (e.populationFuel (valueKeys e.catalog collection v.weight path d v) v)
    collection path d v

/-- Populate the value of a declared field that belongs to no collection. -/
def populate (e : Engine) (path : Path) (d : Declaration) (v : Value) :
    Except EngineError Value × Engine :=
  e.runPopulation (e.populateField none path d v)

/-- Populate every declared field of a stored record. -/
def populateRecord (e : Engine) (name : String) (record : Value) :
    Except EngineError Value × Engine :=
  e.runPopulation <|
    match e.collection name with
    | .error err => return .error err
    | .ok collection => populateFields (e.populateField name) collection.fields record

end Engine

end ContentSchema
