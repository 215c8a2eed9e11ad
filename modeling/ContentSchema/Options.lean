import ContentSchema.Value

/-!
# Resolved options

The concrete option values of one declaration and of the declarations nested in it.  The cache
keeps what has been resolved until it is invalidated, which starts a new generation.
-/

namespace ContentSchema

structure Options where
  /-- Option values by name. -/
  values : List (String × Value)
  /-- Options of the subfields of a list or an object. -/
  subfields : List (String × Options)
  /-- Options of the fields of each variant. -/
  variants : List (String × List (String × Options))
deriving Inhabited

namespace Options

/-- Options without nested declarations. -/
def ofValues (values : Entries Value) : Options := ⟨values, [], []⟩

def empty : Options := ofValues []

/-- The value of an option; null when it is unset. -/
def get (o : Options) (name : String) : Value := (Entries.get? name o.values).getD .null

/-- A flag; off unless it is true. -/
def flag (o : Options) (name : String) : Bool := (o.get name).bool?.getD false

/-- A number as a double. -/
def number? (o : Options) (name : String) : Option Binary64 := (o.get name).binary64?

/-- A number that is a natural integer. -/
def count? (o : Options) (name : String) : Option Nat := (o.get name).number?.bind Number.natural?

def string? (o : Options) (name : String) : Option String := (o.get name).string?

/-- The texts among the items of a list. -/
def strings? (o : Options) (name : String) : Option (List String) :=
  (o.get name).list?.map (·.filterMap Value.string?)

/-- The options of a subfield. -/
def subfield? (o : Options) (name : String) : Option Options := Entries.get? name o.subfields

/-- The options of a field of a variant. -/
def variant? (o : Options) (key name : String) : Option Options :=
  (Entries.get? key o.variants).bind (Entries.get? name)

end Options

/-- Resolved options by the key of the declaration and the name of the property. -/
structure OptionCache where
  generation : Nat
  entries : List ((String × String) × Options)
deriving Inhabited

namespace OptionCache

def empty : OptionCache := ⟨0, []⟩

/-- Forget every entry and start a new generation. -/
def invalidate (cache : OptionCache) : OptionCache := ⟨cache.generation + 1, []⟩

def size (cache : OptionCache) : Nat := cache.entries.length

def isEmpty (cache : OptionCache) : Bool := cache.entries.isEmpty

/-- The options kept for a declaration and a property. -/
def get? (cache : OptionCache) (key : String × String) : Option Options :=
  cache.entries.lookup key

/-- Keep options under a key that has none. -/
def add (cache : OptionCache) (key : String × String) (options : Options) : OptionCache :=
  { cache with entries := cache.entries ++ [(key, options)] }

end OptionCache

end ContentSchema
