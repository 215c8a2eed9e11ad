import ContentSchema.Catalog.Member

/-!
# Shapes

Bring a composite value into the shape its declaration describes: undeclared keys go, malformed
entries become null so that the others keep their index, and malformed containers become empty.
Every change is a problem with a place.  A block of unknown name makes the whole value invalid,
and what follows it is left as it is.
-/

namespace ContentSchema

/-- A message and its place. -/
abbrev Problem := Path × String

/-- What becomes of a value of type `α`. -/
structure Shaped (α : Type) where
  value : α
  problems : List Problem := []
  /-- Every block has a known name. -/
  valid : Bool := true

namespace Shaped

def map {α β : Type} (f : α → β) (s : Shaped α) : Shaped β := ⟨f s.value, s.problems, s.valid⟩

/-- With problems found before. -/
def after {α : Type} (problems : List Problem) (s : Shaped α) : Shaped α :=
  { s with problems := problems ++ s.problems }

/-- An entry of the wrong type. -/
def malformed (base : Path) : Shaped Value := ⟨.null, [(base, Message.invalidInputType)], true⟩

end Shaped

/-- The members with a declared key, and the others as problems. -/
def prune (base : Path) (keep : String → Bool) (members : Entries Value) :
    Entries Value × List Problem :=
  (members.filter fun m => keep m.1,
    (members.filter fun m => !keep m.1).map fun m => (base.child m.1, Message.unrecognizedField))

/-- Shape the entries of a list that are objects. -/
def shapeEntries (base : Path) (shape : Path → Entries Value → Shaped Value)
    (items : List Value) : Shaped Value :=
  let shaped := items.zipIdx.map fun (entry, i) =>
    match entry with
    | .object ms => shape (base.index i) ms
    | _ => .malformed (base.index i)
  ⟨.list (shaped.map (·.value)), shaped.flatMap (·.problems), true⟩

/-- Keep the declared members of an entry. -/
def shapeMembers (keep : String → Bool) (base : Path) (members : Entries Value) : Shaped Value :=
  let (kept, problems) := prune base keep members
  ⟨.object kept, problems, true⟩

/-- Keep the members of the variant that an entry names. -/
def shapeVariant (d : Declaration) (base : Path) (members : Entries Value) : Shaped Value :=
  match d.variantOf? (.object members) with
  | some schema =>
    shapeMembers (fun key => key = variantKey || Entries.contains key schema) base members
  | none => ⟨.null, [(base, Message.invalidStructureKey)], true⟩

namespace Catalog

/-- The fields of a block entry: an object with declared keys. -/
def shapeFields (block : Block) (base : Path) (fields : Option Value) : Value × List Problem :=
  match fields with
  | none => (.object [], [])
  | some (.object ms) =>
    let (kept, problems) := prune base (Entries.contains · block.fields) ms
    (.object kept, problems)
  | some _ => (.object [], [(base, Message.invalidInputType)])

def blockKeys : List String := ["name", "fields", "slots"]

mutual

/-- Shape a block entry that has to be one of the blocks `allowed`, if that is given. -/
def shapeBlock (c : Catalog) (allowed : Option (List String)) (base : Path) : Value → Shaped Value
  | .object ms =>
    match c.blockOf? ms with
    | none => ⟨.object ms, [(base, Message.invalidBlockName)], false⟩
    | some block =>
      if !allowed.all (·.contains block.name) then ⟨.null, [(base, Message.blockNotAllowed)], true⟩
      else
        let (_, unknown) := prune base blockKeys.contains ms
        let (fields, problems) := shapeFields block (base.child "fields") (Entries.get? "fields" ms)
        ((shapeSlots c block (base.child "slots") ms).after (unknown ++ problems)).map fun kept =>
          .object (Entries.insert "fields" fields kept)
  | _ => .malformed base

/-- Drop the unknown members of a block entry and shape its slots. -/
def shapeSlots (c : Catalog) (block : Block) (base : Path) :
    List (String × Value) → Shaped (List (String × Value))
  | [] => ⟨[], [], true⟩
  | (key, v) :: rest =>
    if key = "slots" then
      let shaped : Shaped Value :=
        match v with
        | .object slots =>
          let (_, unknown) := prune base (Entries.contains · block.slots) slots
          ((shapeSlotList c block base slots).after unknown).map .object
        | _ => ⟨.object [], [(base, Message.invalidInputType)], true⟩
      let (kept, _) := prune base blockKeys.contains rest
      shaped.map fun slots => (key, slots) :: kept
    else
      (shapeSlots c block base rest).map fun kept =>
        if blockKeys.contains key then (key, v) :: kept else kept

/-- Shape the declared slots and drop the others, up to a block of unknown name. -/
def shapeSlotList (c : Catalog) (block : Block) (base : Path) :
    List (String × Value) → Shaped (List (String × Value))
  | [] => ⟨[], [], true⟩
  | (key, v) :: rest =>
    match Entries.get? key block.slots with
    | none => shapeSlotList c block base rest
    | some slot =>
      let shaped : Shaped Value :=
        match v with
        | .list items => (shapeBlocks c slot.allowed (base.child key) 0 items).map .list
        | _ => ⟨.list [], [(base.child key, Message.invalidInputType)], true⟩
      if shaped.valid then
        ((shapeSlotList c block base rest).after shaped.problems).map ((key, shaped.value) :: ·)
      else
        let (kept, _) := prune base (Entries.contains · block.slots) rest
        ⟨(key, shaped.value) :: kept, shaped.problems, false⟩

/-- Shape block entries, the first of which has the index `i`, up to a block of unknown name. -/
def shapeBlocks (c : Catalog) (allowed : Option (List String)) (base : Path) (i : Nat) :
    List Value → Shaped (List Value)
  | [] => ⟨[], [], true⟩
  | v :: vs =>
    let shaped := shapeBlock c allowed (base.index i) v
    if shaped.valid then
      ((shapeBlocks c allowed base (i + 1) vs).after shaped.problems).map (shaped.value :: ·)
    else ⟨shaped.value :: vs, shaped.problems, false⟩

end

/-- Bring the value of a declared field at `base` into shape. -/
def shape (c : Catalog) (d : Declaration) (options : Options) (base : Path) (v : Value) :
    Shaped Value :=
  match d.kind, v with
  | .repeater, .list items =>
    shapeEntries base (shapeMembers (Entries.contains · d.subfields)) items
  | .object, .object ms => shapeMembers (Entries.contains · d.subfields) base ms
  | .structured, .list items => shapeEntries base (shapeVariant d) items
  | .blocks, .list items =>
    (c.shapeBlocks (options.strings? "allowed-blocks") base 0 items).map .list
  | _, v => ⟨v, [], true⟩

end Catalog

end ContentSchema
