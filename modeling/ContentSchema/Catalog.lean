import ContentSchema.Declaration

/-!
# Catalogs

The collections and blocks that are known, each under its name and sorted by it.  A name is taken
once.  `unknownChild?` finds a slot that takes a block nobody registered.
-/

namespace ContentSchema

structure Catalog where
  collections : Entries Collection
  blocks : Entries Block
deriving Inhabited

/-- Defects of a set of schemas. -/
inductive CatalogError
  | duplicateCollection (name : String)
  | duplicateBlock (name : String)
  | unknownChildBlock (block slot child : String)
deriving DecidableEq, Repr

def CatalogError.message : CatalogError → String
  | .duplicateCollection name => "duplicate collection name: " ++ name
  | .duplicateBlock name => "duplicate block name: " ++ name
  | .unknownChildBlock block slot child =>
    "block '" ++ block ++ "' slot '" ++ slot ++ "' allows unknown block '" ++ child ++ "'"

namespace Catalog

def empty : Catalog := ⟨[], []⟩

def collection? (c : Catalog) (name : String) : Option Collection := c.collections.get? name

def block? (c : Catalog) (name : String) : Option Block := c.blocks.get? name

def registerCollection (c : Catalog) (collection : Collection) : Except CatalogError Catalog :=
  if c.collections.contains collection.name then .error (.duplicateCollection collection.name)
  else .ok { c with collections := c.collections.insert collection.name collection }

def registerBlock (c : Catalog) (block : Block) : Except CatalogError Catalog :=
  if c.blocks.contains block.name then .error (.duplicateBlock block.name)
  else .ok { c with blocks := c.blocks.insert block.name block }

/-- The blocks first, then the collections. -/
def build (blocks : List Block) (collections : List Collection) : Except CatalogError Catalog := do
  let c ← blocks.foldlM registerBlock empty
  collections.foldlM registerCollection c

/-- The first block that a slot takes and the catalog lacks. -/
def missingChild? (c : Catalog) (slot : Slot) : Option String :=
  slot.allowed.bind fun names => names.find? fun name => !c.blocks.contains name

/-- The first slot, in the order of the block names, that takes an unknown block. -/
def unknownChild? (c : Catalog) : Option CatalogError :=
  c.blocks.findSome? fun (name, block) =>
    block.slots.findSome? fun (slot, s) => (c.missingChild? s).map (.unknownChildBlock name slot)

/-- Every block that a slot takes is registered. -/
def checkSlots (c : Catalog) : Except CatalogError Unit :=
  match c.unknownChild? with
  | some e => .error e
  | none => .ok ()

def collectionNames (c : Catalog) : List String := c.collections.keys

def blockNames (c : Catalog) : List String := c.blocks.keys

end Catalog

end ContentSchema
