import ContentSchema.Yaml.Scalar

/-!
# Documents

A text in a data format before it is read as something: maps keep the order of their members and
their repetitions, and a plain word has no type until one is wanted.
-/

namespace ContentSchema

inductive Document
  | null
  | bool (b : Bool)
  | number (n : Number)
  | string (s : String)
  /-- An unquoted word. -/
  | plain (s : String)
  | list (items : List Document)
  | map (members : List (String × Document))
deriving Inhabited

namespace Document

mutual

/-- The value of a document, its objects sorted by key, the last of equal keys winning. -/
def toValue? : Document → Option Value
  | .null => some .null
  | .bool b => some (.bool b)
  | .number n => some (.number n)
  | .string s => some (.string s)
  | .plain s => Yaml.resolve? s
  | .list items => (toValues? items).map .list
  | .map members => (toMembers? members).map fun ms => .object (Entries.sorted ms)

def toValues? : List Document → Option (List Value)
  | [] => some []
  | d :: ds => do
    let v ← toValue? d
    let vs ← toValues? ds
    some (v :: vs)

def toMembers? : List (String × Document) → Option (List (String × Value))
  | [] => some []
  | (k, d) :: ds => do
    let v ← toValue? d
    let vs ← toMembers? ds
    some ((k, v) :: vs)

end

end Document

end ContentSchema
