import ContentSchema.Declaration

/-!
# Field definitions

A definition says what a field kind does: its options, its stages, its default and its codec.  It
is written as a specification that may leave most of it out; `Specification.normalize` fills the
gaps.
-/

namespace ContentSchema

/-- The type of an option's value. -/
inductive OptionKind
  | any
  | boolean
  | number
  | string
  | array
  | object
deriving DecidableEq, Repr

namespace OptionKind

def all : List OptionKind := [.any, .boolean, .number, .string, .array, .object]

def name : OptionKind → String
  | .any => "any"
  | .boolean => "boolean"
  | .number => "number"
  | .string => "string"
  | .array => "array"
  | .object => "object"

def ofName? (s : String) : Option OptionKind := all.find? (·.name = s)

/-- Whether a value fits; null always does. -/
def accepts : OptionKind → Value → Bool
  | _, .null => true
  | .any, _ => true
  | .boolean, .bool _ => true
  | .number, .number _ => true
  | .string, .string _ => true
  | .array, .list _ => true
  | .object, .object _ => true
  | _, _ => false

end OptionKind

/-- A named and typed parameter of a kind. -/
structure OptionSpec where
  kind : OptionKind
  required : Bool := false
  /-- The value when none is supplied, from the options resolved before and the field's name. -/
  default : Entries Value → String → Value := fun _ _ => .null

namespace OptionSpec

def ofKind (kind : OptionKind) : OptionSpec := { kind := kind }

/-- With a constant default. -/
def withDefault (o : OptionSpec) (value : Value) : OptionSpec :=
  { o with default := fun _ _ => value }

end OptionSpec

/-- How the value of a field is typed: by its run-time type alone or in full. -/
inductive TypeSpec
  | shorthand (runtime : RuntimeType)
  | full (type : ValueType)
deriving DecidableEq, Repr

def TypeSpec.expand : TypeSpec → ValueType
  | .full type => type
  | .shorthand .boolean => ⟨.boolean, "boolean", .boolean⟩
  | .shorthand .number => ⟨.number, "number", .decimal⟩
  | .shorthand .object => ⟨.object, "Record<string, any>", .text⟩
  | .shorthand .string => ⟨.string, "string", .text⟩

/-- Storage form of a value and back. -/
structure Codec where
  serialize : Value → Value
  deserialize : Value → Value

/-- A field kind as it is written down; most parts may be left out. -/
structure Specification where
  kind : FieldKind
  type : TypeSpec
  default : Option (Options → Value) := none
  options : List (String × OptionSpec) := []
  sanitizers : List Sanitizer := []
  validators : List Validator := []
  population : Option Population := none
  keywords : Option (Options → Value → String) := none
  matcher : Option Matcher := none
  codec : Option Codec := none
  /-- Values hold nested declarations. -/
  composite : Bool := false
  /-- Values are lists. -/
  multiple : Bool := false

/-- A field kind with every part given. -/
structure Definition where
  kind : FieldKind
  type : ValueType
  default : Options → Value
  options : List (String × OptionSpec)
  sanitizers : List Sanitizer
  validators : List Validator
  population : Option Population
  keywords : Options → Value → String
  matcher : Matcher
  codec : Option Codec
  composite : Bool
  multiple : Bool
  /-- The kind has an option `required`. -/
  required : Bool

/-- Evaluate the logic against the record; where it fails the field takes its default. -/
def defaultMatcher : Matcher := fun context logic =>
  (logic.matches? context.input context.path).map fun holds =>
    if holds then .proceed else .skip context.default

/-- Fill every gap of a specification. -/
def Specification.normalize (s : Specification) : Definition where
  kind := s.kind
  type := s.type.expand
  default := s.default.getD fun _ => .null
  options := s.options
  sanitizers := s.sanitizers
  validators := s.validators
  population := s.population
  keywords := s.keywords.getD fun _ => Json.plainText
  matcher := s.matcher.getD defaultMatcher
  codec := s.codec
  composite := s.composite
  multiple := s.multiple
  required := Entries.contains "required" s.options

namespace Definition

/-- The storage form of a value. -/
def serialize (d : Definition) (v : Value) : Value := (d.codec.map (·.serialize v)).getD v

/-- The value of a storage form. -/
def deserialize (d : Definition) (v : Value) : Value := (d.codec.map (·.deserialize v)).getD v

end Definition

/-! ### Registries of definitions -/

/-- One definition for each registered kind. -/
structure Registry where
  definitions : List Definition

namespace Registry

def empty : Registry := ⟨[]⟩

def get? (r : Registry) (kind : FieldKind) : Option Definition :=
  r.definitions.find? (·.kind = kind)

/-- The definition of a kind, which must be registered. -/
def get (r : Registry) (kind : FieldKind) : Except SchemaError Definition :=
  match r.get? kind with
  | some d => .ok d
  | none => .error (.unknownKind kind.name)

def contains (r : Registry) (kind : FieldKind) : Bool := (r.get? kind).isSome

/-- Normalize and add a specification; refused with its kind when the kind is taken. -/
def register (r : Registry) (s : Specification) : Except FieldKind Registry :=
  if r.contains s.kind then .error s.kind else .ok ⟨r.definitions ++ [s.normalize]⟩

/-- The registered kinds in the order of `FieldKind.all`. -/
def kinds (r : Registry) : List FieldKind := FieldKind.all.filter r.contains

def size (r : Registry) : Nat := r.definitions.length

def isEmpty (r : Registry) : Bool := r.definitions.isEmpty

end Registry

/-- What is said of a kind that is registered twice. -/
def duplicateKindMessage (kind : FieldKind) : String := "duplicate field definition: " ++ kind.name

end ContentSchema
