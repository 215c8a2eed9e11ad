import ContentSchema.Kinds.Check

/-!
# Texts

A text field holds any text; a slug holds words of small Latin letters and digits with single
dashes between them.  `slugify` turns any text into something close to a slug.
-/

namespace ContentSchema.Kinds

/-- A number becomes its numeral. -/
def numberToText : Value → Value
  | .number n => .string n.text
  | v => v

def lengthCheck : Validator :=
  check fun options v =>
    match v with
    | .string s =>
      countBounds s.length options "min-length" "max-length"
        (fun n => "The value must be at least " ++ Nat.repr n ++ " characters long")
        (fun n => "The value must be at most " ++ Nat.repr n ++ " characters long")
    | _ => .ok ()

def text : Specification where
  kind := .text
  type := .shorthand .string
  default := some defaultOption
  options := [requiredOption, withDefault "default" .string (.string ""),
    withDefault "trim" .boolean (.bool true), optional "min-length" .number,
    optional "max-length" .number]
  sanitizers := [change numberToText,
    changeWith fun options v =>
      match v with
      | .string s => if options.flag "trim" then .string (Text.trim s) else v
      | v => v]
  validators := [requiredCheck, typeCheck Value.isString, lengthCheck]

/-! ### Slugs -/

/-- White space, underscores and dashes separate the words of a slug. -/
def isSeparator (c : Char) : Bool := Text.isBlank c || c = '_' || c = '-'

/-- Every run of separators becomes one dash. -/
def dashed : List Char → List Char
  | [] => []
  | c :: cs =>
    if isSeparator c then
      match cs with
      | d :: _ => if isSeparator d then dashed cs else '-' :: dashed cs
      | [] => ['-']
    else c :: dashed cs

/-- Lower case, single dashes between words, and no dash at either end. -/
def slugify (s : String) : String :=
  String.ofList (Text.trimChars (· = '-') (dashed (Text.lower (Text.trim s)).toList))

/-- A small Latin letter or a digit. -/
def isSlugChar (c : Char) : Bool := ('a' ≤ c && c ≤ 'z') || ('0' ≤ c && c ≤ '9')

/-- Words of slug characters with single dashes between them. -/
def isSlug (s : String) : Bool :=
  (Text.splitChars '-' s.toList).all fun word => !word.isEmpty && word.all isSlugChar

def slugMessage : String := "Only lowercase letters, digits and single dashes are allowed"

def slug : Specification where
  kind := .slug
  type := .shorthand .string
  default := some defaultOption
  options := [requiredOption, withDefault "default" .string (.string "")]
  sanitizers := [change fun v =>
    match v with
    | .string s => .string (slugify s)
    | v => v]
  validators := [requiredCheck, typeCheck Value.isString,
    check fun _ v =>
      match v with
      | .string s => ensure (s.isEmpty || isSlug s) slugMessage
      | _ => .ok ()]

end ContentSchema.Kinds
