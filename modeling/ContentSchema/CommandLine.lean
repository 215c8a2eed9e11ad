import ContentSchema.Catalog.Files
import ContentSchema.CommandLine.Help
import ContentSchema.Engine.Populate
import ContentSchema.Engine.Process
import ContentSchema.Query.Store
import ContentSchema.Settings.Load
import ContentSchema.Text.Grid

/-!
# Commands

Each command loads the settings and the schemas, works on records, and ends with a code and two
texts.  Code 1 says that something could not be loaded, code 2 that records or arguments are not
valid.
-/

namespace ContentSchema

/-- How a command ends. -/
structure Outcome where
  code : Nat
  output : String
  errors : String
deriving DecidableEq, Repr

namespace Outcome

def success (output : String) : Outcome := ⟨0, output, ""⟩

def failure (message : String) : Outcome := ⟨1, "", message ++ "\n"⟩

end Outcome

namespace CommandLine

variable {m : Type → Type} [Monad m] [Host m]

/-! ### Loading -/

/-- Go on with a result, or end as its error says. -/
def orEnd {ε α : Type} (ending : ε → Outcome) : Except ε α → ExceptT Outcome m α
  | .ok a => return a
  | .error e => throw (ending e)

/-- Make the log file. -/
def openLog (settings : LogSettings) : ExceptT Outcome m Unit := do
  match settings.file with
  | none => return
  | some path =>
    let ending (e : FileError) : Outcome :=
      .failure ("Failed to create log file " ++ path ++ ": " ++ e.message)
    orEnd ending (← Host.create path)

/-- Load the settings and the schemas, each ending as its error says. -/
def loadCatalog (config : Option String) (settingsEnding : SettingsError → Outcome)
    (catalogEnding : LoadError → Outcome) : ExceptT Outcome m (Settings × Catalog) := do
  let settings ← orEnd settingsEnding (← ExceptT.lift (Settings.load config).run)
  openLog settings.logging
  let catalog ← orEnd catalogEnding (← ExceptT.lift (Catalog.load settings.schemaDir).run)
  return (settings, catalog)

/-- A message for the user. -/
def errorEnding (message : String) : Outcome := .failure ("Error: " ++ message)

/-- Read a value from a JSON file. -/
def readValue (path : String) : ExceptT Outcome m Value := do
  let ending (e : FileError) : Outcome :=
    errorEnding ("failed to read " ++ path ++ ": " ++ e.message)
  let text ← orEnd ending (← Host.read path)
  match Json.parseValue? text with
  | some v => return v
  | none => throw (errorEnding ("invalid JSON in " ++ path ++ ": " ++ malformedDetail))

/-- The records the settings name, if they name any. -/
def loadStore (settings : Settings) : ExceptT Outcome m Store := do
  match settings.records with
  | none => return .empty
  | some path => orEnd (fun e => errorEnding e.message) (Store.ofValue (← readValue path))

/-- An engine as the settings say. -/
def openEngine (config : Option String) : ExceptT Outcome m Engine := do
  let (settings, catalog) ← loadCatalog config
    (fun e => .failure ("Error loading config: " ++ e.message)) (fun e => errorEnding e.message)
  let store ← loadStore settings
  return ((Engine.ofCatalog catalog).withSource store.source).withMaxDepth settings.maxDepth

/-! ### Doctor -/

/-- Names in a row. -/
def nameList : List String → String
  | [] => "(none)"
  | names => Text.join ", " names

def doctorReport (settings : Settings) (catalog : Catalog) : List String :=
  let natText n := String.ofList (Nat.toDigits 10 n)
  ["OK   fieldkit doctor", "path: " ++ settings.source, "schema_dir: " ++ settings.schemaDir,
    "records: " ++ settings.records.getD "(none)",
    "population.max_depth: " ++ natText settings.maxDepth,
    "logging.level: " ++ settings.logging.level,
    "field types: " ++ natText Registry.builtin.size,
    "collections: " ++ nameList catalog.collectionNames, "blocks: " ++ nameList catalog.blockNames]

/-- Lines with an end each. -/
def linesText (lines : List String) : String := String.join (lines.map (· ++ "\n"))

/-- The report of a failure, which is no message on the side. -/
def doctorFailure (lines : List String) : Outcome :=
  ⟨1, linesText ("FAIL fieldkit doctor" :: lines), ""⟩

def runDoctor (config : Option String) : ExceptT Outcome m Outcome := do
  let default ← Settings.defaultPath
  let (settings, catalog) ← loadCatalog config
    (fun e => doctorFailure
      (e.message :: if config.isNone then ["looked for: " ++ default] else []))
    (fun e => doctorFailure [e.message])
  return .success (linesText (doctorReport settings catalog))

/-! ### Records -/

/-- Errors as a table. -/
def errorTable (errors : ErrorMap) : String :=
  let rows := errors.entries.map fun (path, message) =>
    [if path = "" then "(record)" else path, message]
  linesText [Text.Grid.draw ["Field", "Error"] rows, "",
    "-- " ++ String.ofList (Nat.toDigits 10 errors.size) ++ " errors --"]

/-- Errors as an object in their own order. -/
def errorObject (errors : ErrorMap) : String :=
  Json.prettyText (.object (errors.entries.map fun (path, message) => (path, .string message))) ++
    "\n"

def valueText (v : Value) : String := Json.prettyText v ++ "\n"

/-- A list is one batch, and anything else one record. -/
def processInput (e : Engine) (collection : String) (operation : Operation) :
    Value → Except EngineError ErrorMap × Value
  | .list records =>
    let p := e.processBatch collection records operation
    (p.result, .list p.records)
  | record =>
    let p := e.processRecord collection record operation []
    (p.result, p.records)

def runProcess (e : Engine) (collection : String) (operation : Operation) (json : Bool)
    (input : Value) : Outcome :=
  match processInput e collection operation input with
  | (.error err, _) => errorEnding err.message
  | (.ok errors, v) =>
    if errors.isEmpty then .success (valueText v)
    else ⟨2, if json then errorObject errors else errorTable errors,
      "validation failed for collection '" ++ collection ++ "'\n"⟩

/-- Populate records up to the first failure. -/
def populateAll (collection : String) : Engine → List Value → Except EngineError (List Value)
  | _, [] => .ok []
  | e, record :: records => do
    match e.populateRecord collection record with
    | (.error err, _) => .error err
    | (.ok v, e) => return v :: (← populateAll collection e records)

def runPopulate (e : Engine) (collection : String) (input : Value) : Outcome :=
  let result := match input with
    | .list records => (populateAll collection e records).map Value.list
    | record => (e.populateRecord collection record).1
  match result with
  | .error err => errorEnding err.message
  | .ok v => .success (valueText v)

/-- A line of keywords for each record, up to the first failure. -/
def keywordLines (collection : String) : Engine → List Value → String → Outcome
  | _, [], written => .success written
  | e, record :: records, written =>
    match e.extractRecordKeywords collection record with
    | (.error err, _) => { errorEnding err.message with output := written }
    | (.ok line, e) => keywordLines collection e records (written ++ line ++ "\n")

def runKeywords (e : Engine) (collection : String) (input : Value) : Outcome :=
  match input with
  | .list records => keywordLines collection e records ""
  | record => keywordLines collection e [record] ""

/-! ### The program -/

/-- The end of a command. -/
def runCommand (config : Option String) : Command → ExceptT Outcome m Outcome
  | .doctor => runDoctor config
  | .process collection input operation json => do
    let e ← openEngine config
    return runProcess e collection operation json (← readValue input)
  | .populate collection input => do
    let e ← openEngine config
    return runPopulate e collection (← readValue input)
  | .keywords collection input => do
    let e ← openEngine config
    return runKeywords e collection (← readValue input)

/-- What is said of arguments that make no sense. -/
def usageError : Outcome :=
  ⟨2, "", "error: unexpected arguments\n\nFor more information, try '--help'.\n"⟩

/-- The end of a run. -/
def run (arguments : List String) : m Outcome := do
  match Arguments.parse? arguments with
  | none => return usageError
  | some .version => return .success (programName ++ " " ++ programVersion ++ "\n")
  | some (.help topic) => return .success (Help.text topic)
  | some (.run config command) =>
    match ← (runCommand config command).run with
    | .ok outcome | .error outcome => return outcome

end CommandLine

end ContentSchema
