import ContentSchema.Kind
import ContentSchema.Logic
import ContentSchema.Options
import ContentSchema.Query

/-!
# Stages

What a field goes through: sanitizers that change its value, validators that judge it, a matcher
that decides whether its conditions hold, and a populator that replaces it on reading.  Each stage
sees a context and is a function of it, so that callers can add stages of their own.
-/

namespace ContentSchema

/-- What sanitizers and validators see of the field they run on. -/
structure FieldContext where
  path : Path
  kind : FieldKind
  options : Options
  /-- The value the field falls back to. -/
  default : Value
  operation : Operation
  /-- The whole record. -/
  input : Value
  collection : Option String
  /-- The other records of the batch. -/
  batch : List Value
  source : Option RecordSource

namespace FieldContext

/-- The name of the field. -/
def name (c : FieldContext) : String := c.path.name

/-- The id of the record, when it has one. -/
def recordId? (c : FieldContext) : Option Value := (c.input.get? "id").filter (!·.isNull)

end FieldContext

/-- A change of a value; a failure keeps the value. -/
structure Sanitizer where
  run : FieldContext → Value → Except FieldError Value
  filter : OperationFilter := {}

/-- A judgement of a value. -/
structure Validator where
  run : FieldContext → Value → Except FieldError Unit
  filter : OperationFilter := {}

/-- The answer of a matcher. -/
inductive MatchOutcome
  /-- The conditions hold. -/
  | proceed
  /-- The conditions fail: store this value and do not validate. -/
  | skip (value : Value)
deriving DecidableEq

/-- Decides whether the conditions of a field hold. -/
abbrev Matcher := FieldContext → Logic → Except LogicError MatchOutcome

/-! ### Types of values -/

/-- The type of a value while the program runs. -/
inductive RuntimeType
  | boolean
  | number
  | object
  | string
deriving DecidableEq, Repr

/-- The type of the column a value is stored in. -/
inductive ColumnType
  | boolean
  | decimal
  | integer
  | text
deriving DecidableEq, Repr

def RuntimeType.name : RuntimeType → String
  | .boolean => "boolean"
  | .number => "number"
  | .object => "object"
  | .string => "string"

def ColumnType.name : ColumnType → String
  | .boolean => "BOOLEAN"
  | .decimal => "DECIMAL"
  | .integer => "INTEGER"
  | .text => "TEXT"

/-- The types of a field's value: at run time, as written in client code, and in storage. -/
structure ValueType where
  runtime : RuntimeType
  clientType : String
  column : ColumnType
deriving DecidableEq, Repr

/-! ### Population -/

/-- Calls left for each key; a key that was never used has `limit` left. -/
structure DepthBudget where
  limit : Nat
  left : Entries Nat
deriving DecidableEq, Repr, Inhabited

namespace DepthBudget

def ofLimit (limit : Nat) : DepthBudget := ⟨limit, []⟩

def remaining (budget : DepthBudget) (key : String) : Nat :=
  (budget.left.get? key).getD budget.limit

/-- Use one call of a key; whether there was one, and what is left then. -/
def take (budget : DepthBudget) (key : String) : Bool × DepthBudget :=
  match budget.remaining key with
  | 0 => (false, { budget with left := budget.left.put key 0 })
  | n + 1 => (true, { budget with left := budget.left.put key n })

end DepthBudget

/-- What a population carries along: its budget and the options resolved on the way. -/
structure PopulationState where
  budget : DepthBudget
  cache : OptionCache

abbrev PopulationM := StateM PopulationState

/-- What a populator sees. -/
structure PopulateContext where
  path : Path
  kind : FieldKind
  options : Options
  /-- The collection of the record, if it belongs to one. -/
  collection : Option String
  source : Option RecordSource
  /-- Populate a record through the schema of its collection, within the same budget. -/
  populateRecord : String → Value → PopulationM (Except EngineError Value)

/-- How stored values become the values that are read. -/
structure Population where
  valueType : ValueType
  /-- The value once the budget is spent. -/
  terminal : Value
  run : PopulateContext → Value → PopulationM (Except FieldError Value)

end ContentSchema
