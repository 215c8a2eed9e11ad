import ContentSchema.Text.LetterCase

/-!
# Field kinds and operations

The closed set of field types, and the operations a record goes through.  Both are read from text
without regard to case.
-/

namespace ContentSchema

/-- The type of a field. -/
inductive FieldKind
  /-- A single line of text. -/
  | text
  /-- A lower-case identifier for links. -/
  | slug
  | number
  /-- A pair of numbers. -/
  | range
  | checkbox
  /-- One key of a fixed set of choices. -/
  | select
  /-- A list of texts. -/
  | chips
  | date
  | time
  | dateTime
  /-- A reference to a record of another collection. -/
  | record
  /-- References to several records. -/
  | records
  /-- A list of entries with one schema. -/
  | repeater
  /-- One nested object. -/
  | object
  /-- A list of entries whose schema each entry names. -/
  | structured
  /-- A list of named blocks. -/
  | blocks
deriving DecidableEq, Repr, Inhabited

namespace FieldKind

/-- Every kind, in the order in which kinds are listed. -/
def all : List FieldKind :=
  [.text, .slug, .number, .range, .checkbox, .select, .chips, .date, .time, .dateTime, .record,
   .records, .repeater, .object, .structured, .blocks]

def name : FieldKind → String
  | .text => "text"
  | .slug => "slug"
  | .number => "number"
  | .range => "range"
  | .checkbox => "checkbox"
  | .select => "select"
  | .chips => "chips"
  | .date => "date"
  | .time => "time"
  | .dateTime => "date-time"
  | .record => "record"
  | .records => "records"
  | .repeater => "repeater"
  | .object => "object"
  | .structured => "structure"
  | .blocks => "blocks"

/-- The kind with exactly this name. -/
def ofName? (s : String) : Option FieldKind := all.find? (·.name = s)

/-- The kind with this name or one of its other names, in any case. -/
def parse? (s : String) : Option FieldKind :=
  match Text.lower s with
  | "string" => some .text
  | "switch" => some .checkbox
  | "tags" => some .chips
  | "datetime" => some .dateTime
  | lowered => ofName? lowered

/-- What is said of a text that names no kind. -/
def unknownMessage (s : String) : String := "unknown field type: " ++ s

/-- Whether values of this kind hold nested declarations. -/
def isComposite : FieldKind → Bool
  | .repeater | .object | .structured | .blocks => true
  | _ => false

theorem ofName?_name (k : FieldKind) : ofName? k.name = some k := by cases k <;> decide

end FieldKind

/-- What is being done with a record. -/
inductive Operation
  | create
  | update
  | read
deriving DecidableEq, Repr, Inhabited

namespace Operation

def name : Operation → String
  | .create => "create"
  | .update => "update"
  | .read => "read"

/-- The operation with this name, in any case. -/
def parse? (s : String) : Option Operation :=
  match Text.lower s with
  | "create" => some .create
  | "update" => some .update
  | "read" => some .read
  | _ => none

/-- What is said of a text that names no operation. -/
def unknownMessage (s : String) : String := "unknown operation: " ++ s

end Operation

/-- The operations a stage runs for; no flag means every one. -/
structure OperationFilter where
  onCreate : Bool := false
  onUpdate : Bool := false
  onRead : Bool := false
deriving DecidableEq, Repr, Inhabited

/-- Whether a stage with this filter runs. -/
def OperationFilter.applies (f : OperationFilter) : Operation → Bool
  | .create => f.onCreate || !(f.onCreate || f.onUpdate || f.onRead)
  | .update => f.onUpdate || !(f.onCreate || f.onUpdate || f.onRead)
  | .read => f.onRead || !(f.onCreate || f.onUpdate || f.onRead)

end ContentSchema
