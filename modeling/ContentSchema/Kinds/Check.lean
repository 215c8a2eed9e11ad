import ContentSchema.Definition
import ContentSchema.Json.Reader

/-!
# Checks and changes that several kinds share

A validator passes or gives its message; most pass null, which only `requiredCheck` refuses.
-/

namespace ContentSchema

namespace Json

/-- The value a JSON text holds, when it is acceptable; anything else stays as it is. -/
def decodeText (accept : Value → Bool) (v : Value) : Value :=
  match v with
  | .string s =>
    match parseValue? s with
    | some decoded => if accept decoded then decoded else v
    | none => v
  | v => v

end Json

namespace Value

def isBool (v : Value) : Bool := v.bool?.isSome

def isNumber (v : Value) : Bool := v.number?.isSome

def isString (v : Value) : Bool := v.string?.isSome

def isList (v : Value) : Bool := v.list?.isSome

end Value

namespace Kinds

/-- Fail with a message unless a condition holds. -/
def ensure (holds : Bool) (message : String) : Except FieldError Unit :=
  if holds then .ok () else .error (.message message)

/-- A sanitizer that neither fails nor looks at the context. -/
def change (f : Value → Value) : Sanitizer where run _ v := .ok (f v)

/-- A sanitizer that does not fail. -/
def changeWith (f : Options → Value → Value) : Sanitizer where
  run context v := .ok (f context.options v)

/-- Decode a text that holds an acceptable JSON value. -/
def decoded (accept : Value → Bool) : Sanitizer := change (Json.decodeText accept)

/-- A validator that looks at the options only. -/
def check (f : Options → Value → Except FieldError Unit) : Validator where
  run context v := f context.options v

/-- A required field is filled in. -/
def requiredCheck : Validator :=
  check fun options v => ensure (!(options.flag "required" && v.isEmpty)) Message.required

/-- The value is null or has the right type. -/
def typeCheck (accept : Value → Bool) : Validator :=
  check fun _ v => ensure (v.isNull || accept v) Message.invalidInputType

/-- A count is at least the option `lower` and at most the option `upper`, each if it is a natural
integer. -/
def countBounds (count : Nat) (options : Options) (lower upper : String)
    (tooFew tooMany : Nat → String) : Except FieldError Unit := do
  if let some least := options.count? lower then ensure (least ≤ count) (tooFew least)
  if let some most := options.count? upper then ensure (count ≤ most) (tooMany most)

/-- The number of entries is between the options `min` and `max`. -/
def entryCountCheck : Validator :=
  check fun options v =>
    match v with
    | .list items =>
      countBounds items.length options "min" "max"
        (fun n => "At least " ++ Nat.repr n ++ " entries are required")
        (fun n => "At most " ++ Nat.repr n ++ " entries are allowed")
    | _ => .ok ()

/-! ### Options -/

/-- A flag that is off unless it is supplied. -/
def flagOption : OptionSpec := (OptionSpec.ofKind .boolean).withDefault (.bool false)

/-- The option `required` of most kinds. -/
def requiredOption : String × OptionSpec := ("required", flagOption)

/-- An option without a default. -/
def optional (name : String) (kind : OptionKind) : String × OptionSpec := (name, .ofKind kind)

/-- An option with a constant default. -/
def withDefault (name : String) (kind : OptionKind) (value : Value) : String × OptionSpec :=
  (name, (OptionSpec.ofKind kind).withDefault value)

/-- The default of a field that has an option `default`. -/
def defaultOption (options : Options) : Value := options.get "default"

end Kinds

end ContentSchema
