import ContentSchema.Kinds.Check
import ContentSchema.Text.LetterCase

/-!
# Choices

A checkbox is on or off; a selection is one key of its `choices`; chips are a list of texts, taken
from `choices` when there are any.
-/

namespace ContentSchema.Kinds

/-- The flag that a text or an integer stands for. -/
def readFlag? : Value → Option Bool
  | .string s =>
    match Text.lower (Text.trim s) with
    | "true" | "1" => some true
    | "false" | "0" => some false
    | _ => none
  | .number n =>
    match n.signed? with
    | some 1 => some true
    | some 0 => some false
    | _ => none
  | _ => none

def checkbox : Specification where
  kind := .checkbox
  type := .shorthand .boolean
  default := some defaultOption
  options := [withDefault "default" .boolean (.bool false)]
  sanitizers := [change fun v => ((readFlag? v).map Value.bool).getD v]
  validators := [typeCheck Value.isBool]
  keywords := some fun _ _ => ""

/-! ### Selections -/

def invalidChoice : String := "Invalid choice"

/-- What `choices` says of a key. -/
def choice? (options : Options) (key : String) : Option Value := (options.get "choices").get? key

def select : Specification where
  kind := .select
  type := .shorthand .string
  default := some defaultOption
  options := [requiredOption, ("choices", { kind := .object, required := true }),
    optional "default" .string]
  sanitizers := [change fun v =>
    match v with
    | .number n => .string n.text
    | v => v]
  validators := [requiredCheck,
    check fun options v =>
      match v with
      | .null => .ok ()
      | .string key => ensure (choice? options key).isSome invalidChoice
      | _ => .error (.message invalidChoice)]
  keywords := some fun options v =>
    ((v.string?.bind (choice? options)).bind Value.string?).getD ""

/-! ### Chips -/

def duplicateValues : String := "Duplicate values are not allowed"

/-- Whether no text occurs twice. -/
def allDistinct {α : Type} [BEq α] : List α → Bool
  | [] => true
  | x :: xs => !xs.contains x && allDistinct xs

def isTextList : Value → Bool
  | .list items => items.all Value.isString
  | _ => false

def checkChips (options : Options) (chips : List String) : Except FieldError Unit := do
  ensure (options.flag "allow-duplicates" || allDistinct chips) duplicateValues
  if let some choices := options.strings? "choices" then
    ensure (chips.all choices.contains) invalidChoice
  if let some most := options.count? "max-items" then
    ensure (chips.length ≤ most) ("At most " ++ Nat.repr most ++ " items are allowed")

def chips : Specification where
  kind := .chips
  type := .shorthand .object
  default := some defaultOption
  options := [requiredOption, optional "choices" .array, ("allow-duplicates", flagOption),
    optional "max-items" .number, withDefault "default" .array (.list [])]
  sanitizers := [decoded Value.isList]
  validators := [requiredCheck, typeCheck isTextList,
    check fun options v =>
      match v with
      | .list items => checkChips options (items.filterMap Value.string?)
      | _ => .ok ()]
  keywords := some fun _ v => Text.join " " (v.items.filterMap Value.string?)
  multiple := true

end ContentSchema.Kinds
