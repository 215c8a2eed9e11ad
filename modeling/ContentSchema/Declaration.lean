import ContentSchema.Stage

/-!
# Declarations

A declaration uses a field kind at one place of a schema: it supplies options, nests further
declarations, and may add conditions, constraints and stages of its own.  Schemas keep the order in
which their fields were declared.
-/

namespace ContentSchema

/-- What a declaration adds to its kind. -/
structure Additional where
  /-- No two records hold the same value. -/
  unique : Bool := false
  /-- An update does not change the value. -/
  immutable : Bool := false
  /-- The conditions under which the field is validated. -/
  logic : Option Logic := none
  /-- `some false` keeps the stored value on reading. -/
  population : Option Bool := none
  /-- Takes the place of the kind's population. -/
  populator : Option Population := none
  /-- Run after the sanitizers of the kind. -/
  sanitizers : List Sanitizer := []
  /-- Run after the validators of the kind. -/
  validators : List Validator := []

structure Declaration where
  kind : FieldKind
  /-- Supplied options, sorted by name. -/
  options : List (String × Value) := []
  /-- Fields of the entries of a list, or of an object. -/
  subfields : List (String × Declaration) := []
  /-- Schemas by the key of an entry. -/
  variants : List (String × List (String × Declaration)) := []
  additional : Additional := {}

/-- Declarations by field name. -/
abbrev Schema := List (String × Declaration)

namespace Declaration

def ofKind (kind : FieldKind) : Declaration := { kind := kind }

instance : Inhabited Declaration := ⟨ofKind .text⟩

/-! ### Building -/

def option (d : Declaration) (name : String) (value : Value) : Declaration :=
  { d with options := Entries.insert name value d.options }

def required (d : Declaration) : Declaration := d.option "required" (.bool true)

def subfield (d : Declaration) (name : String) (field : Declaration) : Declaration :=
  { d with subfields := Entries.put name field d.subfields }

def variant (d : Declaration) (key : String) (schema : Schema) : Declaration :=
  { d with variants := Entries.put key schema d.variants }

def conditional (d : Declaration) (logic : Logic) : Declaration :=
  { d with additional := { d.additional with logic := some logic } }

def unique (d : Declaration) : Declaration :=
  { d with additional := { d.additional with unique := true } }

def immutable (d : Declaration) : Declaration :=
  { d with additional := { d.additional with immutable := true } }

def withoutPopulation (d : Declaration) : Declaration :=
  { d with additional := { d.additional with population := some false } }

/-- Whether the options ask for a value. -/
def isRequired (d : Declaration) : Bool :=
  ((Entries.get? "required" d.options).bind Value.bool?).getD false

/-! ### Key -/

mutual

/-- The characters of the key under which resolved options are kept: the kind and its options, the
subfields between braces, and each variant behind a bar. -/
def keyChars : Declaration → List Char
  | ⟨kind, options, subfields, variants, _⟩ =>
    kind.name.toList ++ Json.chars (.object options) ++
      (match subfields with
        | [] => []
        | _ :: _ => '\x7b' :: keyMembers subfields ++ ['\x7d']) ++
      keyVariants variants

/-- Fields with commas between them. -/
def keyMembers : List (String × Declaration) → List Char
  | [] => []
  | [(name, d)] => name.toList ++ '=' :: keyChars d
  | (name, d) :: m :: rest => name.toList ++ '=' :: keyChars d ++ ',' :: keyMembers (m :: rest)

def keyVariants : List (String × List (String × Declaration)) → List Char
  | [] => []
  | (key, schema) :: rest =>
    '|' :: key.toList ++ '\x7b' :: keyMembers schema ++ ['\x7d'] ++ keyVariants rest

end

/-- The key under which resolved options are kept. -/
def cacheKey (d : Declaration) : String := String.ofList d.keyChars

end Declaration

/-! ### Collections and blocks -/

/-- A type of stored records. -/
structure Collection where
  name : String
  label : Option String := none
  fields : Schema
  /-- The fields that contribute keywords; all when unset. -/
  search : Option (List String) := none

namespace Collection

def withSearch (c : Collection) (names : List String) : Collection :=
  { c with search := some names }

/-- Whether a member of a record belongs to the collection's records. -/
def declares (c : Collection) (name : String) : Bool := Entries.contains name c.fields

end Collection

/-- A place in a block that holds child blocks. -/
structure Slot where
  label : Option String := none
  /-- The blocks the slot takes; any when unset. -/
  allowed : Option (List String) := none
deriving DecidableEq, Repr, Inhabited

def Slot.allows (s : Slot) (block : String) : Bool := s.allowed.all (·.contains block)

/-- A named group of fields and slots. -/
structure Block where
  name : String
  fields : Schema := []
  slots : Entries Slot := []
deriving Inhabited

namespace Block

def field (b : Block) (name : String) (d : Declaration) : Block :=
  { b with fields := Entries.put name d b.fields }

def slot (b : Block) (name : String) (s : Slot) : Block :=
  { b with slots := Entries.put name s b.slots }

end Block

end ContentSchema
