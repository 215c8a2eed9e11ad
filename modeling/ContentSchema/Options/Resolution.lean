import ContentSchema.Definition

/-!
# Resolving options

The options of a declaration are resolved in the order in which its kind declares them, so that a
default may depend on the options before it.  Nested declarations are resolved with it, each under
its own name.  `OptionCache.resolve` answers from what was resolved before.
-/

namespace ContentSchema

namespace Definition

/-- Resolve the options still to come after `resolved`. -/
def resolveRest (d : Definition) (name : String) (supplied : Entries Value) :
    List (String × OptionSpec) → Entries Value → Except SchemaError (Entries Value)
  | [], resolved => .ok resolved
  | (option, spec) :: rest, resolved =>
    match supplied.get? option with
    | some value =>
      if spec.kind.accepts value then
        d.resolveRest name supplied rest (resolved.insert option value)
      else .error (.invalidOption d.kind.name name option spec.kind.name)
    | none =>
      if spec.required then .error (.missingOption d.kind.name name option)
      else d.resolveRest name supplied rest (resolved.insert option (spec.default resolved name))

/-- The values of all options of a definition for the property `name`. -/
def resolveValues (d : Definition) (name : String) (supplied : Entries Value) :
    Except SchemaError (Entries Value) :=
  match supplied.keys.find? fun key => !Entries.contains key d.options with
  | some unknown => .error (.unknownOption d.kind.name name unknown)
  | none => d.resolveRest name supplied d.options []

end Definition

namespace Registry

mutual

/-- The options of a declaration that is used as the property `name`, and of all nested in it. -/
def resolve (r : Registry) (name : String) : Declaration → Except SchemaError Options
  | ⟨kind, options, subfields, variants, _⟩ =>
    match r.get kind with
    | .error e => .error e
    | .ok definition =>
      match definition.resolveValues name options with
      | .error e => .error e
      | .ok values =>
        match resolveSchema r subfields with
        | .error e => .error e
        | .ok subfields =>
          match resolveVariants r variants with
          | .error e => .error e
          | .ok variants => .ok ⟨values, subfields, variants⟩

def resolveSchema (r : Registry) :
    List (String × Declaration) → Except SchemaError (List (String × Options))
  | [] => .ok []
  | (name, d) :: rest =>
    match resolve r name d with
    | .error e => .error e
    | .ok options =>
      match resolveSchema r rest with
      | .error e => .error e
      | .ok others => .ok ((name, options) :: others)

def resolveVariants (r : Registry) :
    List (String × List (String × Declaration)) →
      Except SchemaError (List (String × List (String × Options)))
  | [] => .ok []
  | (key, schema) :: rest =>
    match resolveSchema r schema with
    | .error e => .error e
    | .ok options =>
      match resolveVariants r rest with
      | .error e => .error e
      | .ok others => .ok ((key, options) :: others)

end

end Registry

namespace OptionCache

/-- Resolve through the cache; what is resolved for the first time is kept, a failure is not. -/
def resolve (cache : OptionCache) (r : Registry) (name : String) (d : Declaration) :
    Except SchemaError Options × OptionCache :=
  let key := (d.cacheKey, name)
  match cache.get? key with
  | some options => (.ok options, cache)
  | none =>
    match r.resolve name d with
    | .ok options => (.ok options, cache.add key options)
    | .error e => (.error e, cache)

end OptionCache

end ContentSchema
