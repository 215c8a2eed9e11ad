import ContentSchema.Catalog.Shape
import ContentSchema.Kinds
import ContentSchema.Options.Resolution

/-!
# Engines

An engine knows field kinds and a catalog, may have a record source, and keeps the options it has
resolved.  Computations that resolve options run in `ResolveM`, which threads the cache and ends at
the first engine error.
-/

namespace ContentSchema

structure Engine where
  registry : Registry
  catalog : Catalog
  source : Option RecordSource
  /-- How often one relation is followed from one place. -/
  maxDepth : Nat
  cache : OptionCache

namespace Engine

def defaultMaxDepth : Nat := 30

/-- An engine over the built-in kinds without a record source. -/
def ofCatalog (catalog : Catalog) : Engine :=
  ⟨.builtin, catalog, none, defaultMaxDepth, .empty⟩

def withSource (e : Engine) (source : RecordSource) : Engine := { e with source := some source }

def withMaxDepth (e : Engine) (maxDepth : Nat) : Engine := { e with maxDepth := maxDepth }

/-- Replace the kinds and forget the resolved options. -/
def withRegistry (e : Engine) (registry : Registry) : Engine :=
  { e with registry := registry, cache := e.cache.invalidate }

/-- Replace the catalog and forget the resolved options. -/
def reload (e : Engine) (catalog : Catalog) : Engine :=
  { e with catalog := catalog, cache := e.cache.invalidate }

/-- Forget the resolved options. -/
def invalidate (e : Engine) : Engine := { e with cache := e.cache.invalidate }

/-- The collection of this name, which must be registered. -/
def collection (e : Engine) (name : String) : Except EngineError Collection :=
  match e.catalog.collection? name with
  | some c => .ok c
  | none => .error (.schema (.unknownCollection name))

/-- The definition of a kind, which must be registered. -/
def definition (e : Engine) (kind : FieldKind) : Except EngineError Definition :=
  (e.registry.get kind).mapError .schema

/-- Resolve the options of a declaration used as the property `name`. -/
def resolveOptions (e : Engine) (name : String) (d : Declaration) :
    Except EngineError Options × Engine :=
  let (result, cache) := e.cache.resolve e.registry name d
  (result.mapError .schema, { e with cache := cache })

end Engine

/-- The value a field takes when it has none. -/
def Definition.defaultOf (d : Definition) (options : Options) : Value := d.default options

end ContentSchema
