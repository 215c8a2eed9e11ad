import ContentSchema.Kinds.Choice
import ContentSchema.Kinds.Container
import ContentSchema.Kinds.Moment
import ContentSchema.Kinds.Numeric
import ContentSchema.Kinds.Reference
import ContentSchema.Kinds.Text

/-!
# Built-in kinds

One specification for each field kind, and the registry of all of them.
-/

namespace ContentSchema

namespace Kinds

/-- What is built in for a kind. -/
def specification : FieldKind → Specification
  | .text => text
  | .slug => slug
  | .number => number
  | .range => range
  | .checkbox => checkbox
  | .select => select
  | .chips => chips
  | .date => date
  | .time => time
  | .dateTime => dateTime
  | .record => record
  | .records => records
  | .repeater => repeater
  | .object => object
  | .structured => structured
  | .blocks => blocks

@[simp] theorem kind_specification (k : FieldKind) : (specification k).kind = k := by
  cases k <;> rfl

end Kinds

namespace Registry

/-- Every kind with its built-in specification. -/
def builtin : Registry := ⟨FieldKind.all.map fun k => (Kinds.specification k).normalize⟩

theorem get?_builtin (k : FieldKind) :
    builtin.get? k = some (Kinds.specification k).normalize := by
  cases k <;> rfl

end Registry

end ContentSchema
