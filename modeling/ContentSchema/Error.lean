/-!
# Errors

What can go wrong, by cause, and the wording of each cause.  A record that fails its checks is no
error: its messages are collected under paths.
-/

namespace ContentSchema

/-- Defects of a schema or of a declaration. -/
inductive SchemaError
  | unknownKind (kind : String)
  | missingOption (kind field option : String)
  | unknownOption (kind field option : String)
  | invalidOption (kind field option expected : String)
  | unknownCollection (name : String)
  | unknownBlock (name : String)
deriving DecidableEq, Repr

/-- Defects of conditional logic. -/
inductive LogicError
  /-- A reference leads to a value that does not exist. -/
  | missingDependency (field reference resolved : String)
  | malformed (detail : String)
deriving DecidableEq, Repr

/-- Failures of a record source. -/
inductive QueryError
  | unknownCollection (name : String)
  | source (detail : String)
deriving DecidableEq, Repr

/-- Defects that end an operation. -/
inductive EngineError
  | logic (e : LogicError)
  | schema (e : SchemaError)
deriving DecidableEq, Repr

/-- Failures of a sanitizer, a validator or a populator. -/
inductive FieldError
  /-- A message for the user. -/
  | message (text : String)
  | query (e : QueryError)
  | schema (e : SchemaError)
  | engine (e : EngineError)
deriving DecidableEq, Repr

namespace SchemaError

def message : SchemaError → String
  | .unknownKind kind => "unknown field type: " ++ kind
  | .missingOption kind field option =>
    "missing required option '" ++ option ++ "' for " ++ kind ++ " field '" ++ field ++ "'"
  | .unknownOption kind field option =>
    "unknown option '" ++ option ++ "' for " ++ kind ++ " field '" ++ field ++ "'"
  | .invalidOption kind field option expected =>
    "invalid value for option '" ++ option ++ "' of " ++ kind ++ " field '" ++ field ++
      "': expected " ++ expected
  | .unknownCollection name => "unknown collection: " ++ name
  | .unknownBlock name => "unknown block: " ++ name

end SchemaError

def LogicError.message : LogicError → String
  | .missingDependency field reference resolved =>
    "conditional logic of '" ++ field ++ "' references '" ++ reference ++
      "', which resolves to the missing value '" ++ resolved ++ "'"
  | .malformed detail => "malformed conditional logic: " ++ detail

def QueryError.message : QueryError → String
  | .unknownCollection name => "unknown collection: " ++ name
  | .source detail => "record source failed: " ++ detail

def EngineError.message : EngineError → String
  | .logic e => e.message
  | .schema e => e.message

def FieldError.messageText : FieldError → String
  | .message text => text
  | .query e => e.message
  | .schema e => e.message
  | .engine e => e.message

/-! ### Messages of checks -/

namespace Message

def required : String := "This field is required"
def invalidInputType : String := "Invalid input type"
def unrecognizedField : String := "Unrecognized field name"
def invalidBlockName : String := "Invalid block name"
def invalidStructureKey : String := "Invalid structure key"
def blockNotAllowed : String := "This block is not allowed here"
def notUnique : String := "This value already exists"
def immutable : String := "This field is immutable"

end Message

/-! ### Outcomes -/

/-- A mapped outcome is a success exactly where the outcome is. -/
theorem Except.map_eq_ok_iff {ε α β : Type} {x : Except ε α} {f : α → β} {b : β} :
    x.map f = .ok b ↔ ∃ a, x = .ok a ∧ f a = b := by
  cases x with
  | ok a =>
    refine ⟨fun h => ⟨a, rfl, Except.ok.inj h⟩, ?_⟩
    rintro ⟨_, ha, rfl⟩
    rw [Except.ok.inj ha]
    rfl
  | error e => exact ⟨nofun, nofun⟩

end ContentSchema
