import ContentSchema.Kinds.Check

/-!
# Containers

Kinds whose values hold nested fields.  Their stages look at the container only: the nested fields
are members of the value and go through stages of their own.
-/

namespace ContentSchema.Kinds

/-- A kind whose values are lists of entries. -/
def entryList (kind : FieldKind) (clientType : String) (extra : List (String × OptionSpec))
    (checks : List Validator) : Specification where
  kind := kind
  type := .full ⟨.object, clientType, .text⟩
  default := some fun _ => .list []
  options := requiredOption :: extra
  sanitizers := [decoded Value.isList]
  validators := [requiredCheck, typeCheck Value.isList] ++ checks
  composite := true
  multiple := true

/-- Bounds on the number of entries. -/
def entryCountOptions : List (String × OptionSpec) :=
  [optional "min" .number, optional "max" .number]

def repeater : Specification :=
  entryList .repeater "Record<string, any>[]" entryCountOptions [entryCountCheck]

def structured : Specification :=
  entryList .structured "(\x7b $key: string \x7d & Record<string, any>)[]" entryCountOptions
    [entryCountCheck]

def blocks : Specification :=
  entryList .blocks
    "\x7b name: string, fields: Record<string, any>, slots?: Record<string, any[]> \x7d[]"
    [optional "allowed-blocks" .array] []

def object : Specification where
  kind := .object
  type := .shorthand .object
  default := some fun _ => .object []
  options := [requiredOption]
  sanitizers := [decoded Value.isObject]
  validators := [requiredCheck, typeCheck Value.isObject]
  composite := true

end ContentSchema.Kinds
