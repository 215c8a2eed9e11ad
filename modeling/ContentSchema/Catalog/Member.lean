import ContentSchema.Catalog

/-!
# Members

The nested declarations of a composite value with the places of their values: subfields of list
entries and of objects, fields of the variant an entry names, and fields of blocks at every depth
of their slots.  A member is listed whether or not its value is present.
-/

namespace ContentSchema

/-- A nested declaration and the place of its value. -/
structure Member where
  /-- From the composite value. -/
  relative : Path
  declaration : Declaration

/-- The member of a list entry that names its variant. -/
def variantKey : String := "$key"

namespace Member

/-- The members of an object with a schema. -/
def ofSchema (base : Path) (schema : Schema) : List Member :=
  schema.map fun (name, d) => ⟨base.child name, d⟩

end Member

/-- The schema of the variant that an entry names. -/
def Declaration.variantOf? (d : Declaration) (entry : Value) : Option Schema := do
  let key ← (← entry.get? variantKey).string?
  Entries.get? key d.variants

namespace Catalog

/-- The block that an entry with these members names. -/
def blockOf? (c : Catalog) (members : Entries Value) : Option Block := do
  let name ← (← members.get? "name").string?
  c.block? name

mutual

/-- The members of a block and of the blocks in its slots. -/
def blockMembers (c : Catalog) (base : Path) : Value → List Member
  | .object ms =>
    match c.blockOf? ms with
    | none => []
    | some block =>
      Member.ofSchema (base.child "fields") block.fields ++
        block.slots.keys.flatMap fun slot => slotMembers c (base.child "slots") slot ms
  | _ => []

/-- The members below one slot of an entry. -/
def slotMembers (c : Catalog) (base : Path) (slot : String) : List (String × Value) → List Member
  | [] => []
  | (key, v) :: rest =>
    if key = "slots" then
      match v with
      | .object slots => childMembers c (base.child slot) slot slots
      | _ => []
    else slotMembers c base slot rest

/-- The members below one slot, from the slots of an entry. -/
def childMembers (c : Catalog) (base : Path) (slot : String) : List (String × Value) → List Member
  | [] => []
  | (key, v) :: rest =>
    if key = slot then
      match v with
      | .list items => blockListMembers c base 0 items
      | _ => []
    else childMembers c base slot rest

/-- The members of a list of blocks whose first entry has the index `i`. -/
def blockListMembers (c : Catalog) (base : Path) (i : Nat) : List Value → List Member
  | [] => []
  | v :: vs => blockMembers c (base.index i) v ++ blockListMembers c base (i + 1) vs

end

/-- The members of a composite value. -/
def members (c : Catalog) (d : Declaration) (v : Value) : List Member :=
  match d.kind with
  | .repeater =>
    v.items.zipIdx.flatMap fun (entry, i) =>
      if entry.isObject then Member.ofSchema (Path.root.index i) d.subfields else []
  | .object => if v.isObject then Member.ofSchema .root d.subfields else []
  | .structured =>
    v.items.zipIdx.flatMap fun (entry, i) =>
      match d.variantOf? entry with
      | some schema => Member.ofSchema (Path.root.index i) schema
      | none => []
  | .blocks => c.blockListMembers .root 0 v.items
  | _ => []

end Catalog

end ContentSchema
