import ContentSchema.Declaration
import ContentSchema.Document

/-!
# Reading declarations

Declarations, collections and blocks are read from documents.  Members that mean nothing are
skipped; a member that means something occurs once, and has the right type.  Optional members may
be null where their absence means something of its own.  With `listed`, which JSON asks for, a
record may be the list of its members without their names, and a kind a map from its name to null.
-/

namespace ContentSchema

/-- Why a document is no declaration. -/
inductive ReadError
  /-- A part is missing, repeated or of the wrong type. -/
  | malformed
  | logic (e : LogicError)
deriving DecidableEq, Repr

namespace Document

/-- A quoted text or an unquoted word. -/
def text? : Document → Option String
  | .string s | .plain s => some s
  | _ => none

def bool? : Document → Option Bool
  | .bool b => some b
  | .plain s => Yaml.bool? s
  | _ => none

/-- Null, or a word that says so. -/
def isNull : Document → Bool
  | .null => true
  | .plain s => s = "" || Yaml.isNullWord s
  | _ => false

/-- A list of texts. -/
def texts? : Document → Option (List String)
  | .list items => items.mapM text?
  | .plain "" => some []
  | _ => none

/-- A map of values, sorted by key. -/
def values? : Document → Option (Entries Value)
  | .map ms => (toMembers? ms).map Entries.sorted
  | .plain "" => some []
  | _ => none

end Document

namespace Read

/-- The answer of a reader. -/
abbrev Result := Except ReadError

def require {α : Type} : Option α → Result α
  | some a => .ok a
  | none => .error .malformed

/-- A member that may be null. -/
def optional {α : Type} (read : Document → Option α) (d : Document) : Result (Option α) :=
  if d.isNull then .ok none else (require (read d)).map some

/-- Set a member that has not been set. -/
def once {α β : Type} (old : Option α) (read : Result β) : Result β :=
  match old with
  | some _ => .error .malformed
  | none => read

/-- Read the members of a record one after the other, each with its name. -/
def members {α : Type} (names : List String) (listed : Bool)
    (member : String → Document → α → Result α) (start : α) : Document → Result α
  | .map ms => ms.foldlM (fun parts (key, d) => member key d parts) start
  | .plain "" => .ok start
  | .list items =>
    if listed && items.length ≤ names.length then
      (names.zip items).foldlM (fun parts (key, d) => member key d parts) start
    else .error .malformed
  | _ => .error .malformed

/-! ### Conditions and constraints -/

def logic (d : Document) : Result Logic := do
  (Logic.ofValue (← require d.toValue?)).mapError .logic

structure AdditionalParts where
  unique : Option Bool := none
  immutable : Option Bool := none
  logic : Option (Option Logic) := none
  population : Option (Option Bool) := none

def additionalMember (key : String) (d : Document) (parts : AdditionalParts) :
    Result AdditionalParts :=
  match key with
  | "unique" => once parts.unique do return { parts with unique := ← require d.bool? }
  | "immutable" => once parts.immutable do return { parts with immutable := ← require d.bool? }
  | "conditional-logic" => once parts.logic do
    if d.isNull then return { parts with logic := some none }
    return { parts with logic := some (some (← logic d)) }
  | "population" => once parts.population do
    return { parts with population := some (← optional Document.bool? d) }
  | _ => .ok parts

def additional (listed : Bool) (d : Document) : Result Additional := do
  let parts ← members ["unique", "immutable", "conditional-logic", "population"] listed
    additionalMember {} d
  return {
    unique := parts.unique.getD false
    immutable := parts.immutable.getD false
    logic := parts.logic.getD none
    population := parts.population.getD none }

/-! ### Declarations -/

structure DeclarationParts where
  kind : Option FieldKind := none
  options : Option (Entries Value) := none
  subfields : Option (List (String × Declaration)) := none
  variants : Option (List (String × List (String × Declaration))) := none
  additional : Option Additional := none

/-- The declaration of the parts; only the kind has to be there. -/
def DeclarationParts.toDeclaration (parts : DeclarationParts) : Result Declaration := do
  return {
    kind := ← require parts.kind
    options := parts.options.getD []
    subfields := parts.subfields.getD []
    variants := parts.variants.getD []
    additional := parts.additional.getD {} }

/-- The name of a kind: a text, or with `listed` the only key of a map to null. -/
def kindName? (listed : Bool) : Document → Option String
  | .map [(name, .null)] => if listed then some name else none
  | d => d.text?

def declarationNames : List String := ["type", "options", "subfields", "structure", "additional"]

mutual

def declaration (listed : Bool) : Document → Result Declaration
  | .map ms => do (← declarationMembers listed ms {}).toDeclaration
  | .list items => do
    if listed then (← listedMembers listed declarationNames items {}).toDeclaration
    else throw .malformed
  | _ => .error .malformed

def declarationMembers (listed : Bool) :
    List (String × Document) → DeclarationParts → Result DeclarationParts
  | [], parts => .ok parts
  | (key, d) :: rest, parts => do
    declarationMembers listed rest (← declarationMember listed key d parts)

/-- Members without names, in the order of the names. -/
def listedMembers (listed : Bool) :
    List String → List Document → DeclarationParts → Result DeclarationParts
  | _, [], parts => .ok parts
  | [], _ :: _, _ => .error .malformed
  | key :: names, d :: rest, parts => do
    listedMembers listed names rest (← declarationMember listed key d parts)

def declarationMember (listed : Bool) (key : String) (d : Document) (parts : DeclarationParts) :
    Result DeclarationParts :=
  match key with
  | "type" => once parts.kind do
    return { parts with kind := ← require ((kindName? listed d).bind FieldKind.ofName?) }
  | "options" => once parts.options do return { parts with options := ← require d.values? }
  | "subfields" => once parts.subfields do return { parts with subfields := ← schema listed d }
  | "structure" => once parts.variants do return { parts with variants := ← variants listed d }
  | "additional" => once parts.additional do
    return { parts with additional := ← additional listed d }
  | _ => .ok parts

/-- Declarations by field name. -/
def schema (listed : Bool) : Document → Result (List (String × Declaration))
  | .map ms => schemaMembers listed ms []
  | .plain "" => .ok []
  | _ => .error .malformed

def schemaMembers (listed : Bool) : List (String × Document) → List (String × Declaration) →
    Result (List (String × Declaration))
  | [], fields => .ok fields
  | (name, d) :: rest, fields => do
    schemaMembers listed rest (Entries.put name (← declaration listed d) fields)

/-- Schemas by variant. -/
def variants (listed : Bool) : Document → Result (List (String × List (String × Declaration)))
  | .map ms => variantMembers listed ms []
  | .plain "" => .ok []
  | _ => .error .malformed

def variantMembers (listed : Bool) : List (String × Document) →
    List (String × List (String × Declaration)) →
    Result (List (String × List (String × Declaration)))
  | [], found => .ok found
  | (key, d) :: rest, found => do
    variantMembers listed rest (Entries.put key (← schema listed d) found)

end

/-! ### Collections and blocks -/

structure CollectionParts where
  name : Option String := none
  label : Option (Option String) := none
  fields : Option Schema := none
  search : Option (Option (List String)) := none

def collectionMember (listed : Bool) (key : String) (d : Document) (parts : CollectionParts) :
    Result CollectionParts :=
  match key with
  | "name" => once parts.name do return { parts with name := ← require d.text? }
  | "label" => once parts.label do
    return { parts with label := some (← optional Document.text? d) }
  | "fields" => once parts.fields do return { parts with fields := ← schema listed d }
  | "search" => once parts.search do
    return { parts with search := some (← optional Document.texts? d) }
  | _ => .ok parts

def collection (listed : Bool) (d : Document) : Result Collection := do
  let parts ← members ["name", "label", "fields", "search"] listed (collectionMember listed) {} d
  return {
    name := parts.name.getD ""
    label := parts.label.getD none
    fields := ← require parts.fields
    search := parts.search.getD none }

structure SlotParts where
  label : Option (Option String) := none
  allowed : Option (Option (List String)) := none

def slotMember (key : String) (d : Document) (parts : SlotParts) : Result SlotParts :=
  match key with
  | "label" => once parts.label do
    return { parts with label := some (← optional Document.text? d) }
  | "allowed-child-blocks" => once parts.allowed do
    return { parts with allowed := some (← optional Document.texts? d) }
  | _ => .ok parts

def slot (listed : Bool) (d : Document) : Result Slot := do
  let parts ← members ["label", "allowed-child-blocks"] listed slotMember {} d
  return { label := parts.label.getD none, allowed := parts.allowed.getD none }

def slots (listed : Bool) : Document → Result (Entries Slot)
  | .map ms => ms.foldlM (fun found (name, d) => return found.put name (← slot listed d)) []
  | .plain "" => .ok []
  | _ => .error .malformed

structure BlockParts where
  name : Option String := none
  fields : Option Schema := none
  slots : Option (Entries Slot) := none

def blockMember (listed : Bool) (key : String) (d : Document) (parts : BlockParts) :
    Result BlockParts :=
  match key with
  | "name" => once parts.name do return { parts with name := ← require d.text? }
  | "fields" => once parts.fields do return { parts with fields := ← schema listed d }
  | "slots" => once parts.slots do return { parts with slots := ← slots listed d }
  | _ => .ok parts

def block (listed : Bool) (d : Document) : Result Block := do
  let parts ← members ["name", "fields", "slots"] listed (blockMember listed) {} d
  return {
    name := parts.name.getD ""
    fields := parts.fields.getD []
    slots := parts.slots.getD [] }

end Read

end ContentSchema
