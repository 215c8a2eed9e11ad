import ContentSchema.Kinds.Check

/-!
# Numbers and ranges

A number field rounds to its `decimals` and keeps within `min` and `max`.  A range is a pair of
numbers; bounds hold for both and for their distance.
-/

namespace ContentSchema.Kinds

/-- A text that holds a number becomes that number. -/
def textToNumber (v : Value) : Value :=
  match v with
  | .string s => ((Text.readNumber? s).map Value.ofBinary64).getD v
  | v => v

/-- A double that may be too large to exist; such a one has no value. -/
def valueOf (x : Option Binary64) : Value := (x.map Value.ofBinary64).getD .null

/-- The numeral of a bound in a message. -/
def boundText (x : Binary64) : String := (Number.ofBinary64 x).text

/-- Round to a number of decimals: scale up, round half away from zero, scale down. -/
def roundDecimals (decimals : Nat) (x : Binary64) : Option Binary64 := do
  let factor := Binary64.powerOfTen (min decimals 15)
  let scaled ← x.mul factor
  (← Binary64.ofInt? scaled.roundHalfAway).div factor

/-- A number between the options `min` and `max`, each if it is set. -/
def checkBounds (options : Options) (x : Binary64) : Except FieldError Unit := do
  if let some least := options.number? "min" then
    ensure (x.cmp least).isGE ("The value must be greater than or equal to " ++ boundText least)
  if let some most := options.number? "max" then
    ensure (x.cmp most).isLE ("The value must be less than or equal to " ++ boundText most)

def number : Specification where
  kind := .number
  type := .shorthand .number
  default := some defaultOption
  options := [requiredOption, withDefault "default" .number (.number 0), optional "min" .number,
    optional "max" .number, optional "decimals" .number]
  sanitizers := [change textToNumber,
    changeWith fun options v =>
      match v.binary64?, options.count? "decimals" with
      | some x, some decimals => valueOf (roundDecimals decimals x)
      | _, _ => v]
  validators := [requiredCheck, typeCheck Value.isNumber,
    check fun options v =>
      match v.binary64? with
      | some x => checkBounds options x
      | none => .ok ()]

/-! ### Ranges -/

/-- The ends of a list of two numbers. -/
def rangeEnds? : Value → Option (Binary64 × Binary64)
  | .list [first, last] => do some (← first.binary64?, ← last.binary64?)
  | _ => none

/-- The order of a distance and a bound; a distance too large for a double exceeds every bound. -/
def cmpDistance (distance : Option Binary64) (bound : Binary64) : Ordering :=
  match distance with
  | some d => d.cmp bound
  | none => .gt

def checkRange (options : Options) (first last : Binary64) : Except FieldError Unit := do
  checkBounds options first
  checkBounds options last
  ensure (first.cmp last).isLE "The start of the range must not exceed its end"
  let distance := last.sub first
  if let some least := options.number? "min-range" then
    ensure (cmpDistance distance least).isGE
      ("The range must span at least " ++ boundText least)
  if let some most := options.number? "max-range" then
    ensure (cmpDistance distance most).isLE ("The range must span at most " ++ boundText most)

/-- The number of an option resolved before, as the default of a later one. -/
def earlierNumber? (resolved : Entries Value) (name : String) : Option Binary64 :=
  (resolved.get? name).bind Value.binary64?

def range : Specification where
  kind := .range
  type := .shorthand .object
  default := some defaultOption
  options := [requiredOption, withDefault "min" .number (.number 0),
    withDefault "max" .number (.number 100), withDefault "min-range" .number (.number 0),
    ("max-range",
      { kind := .number
        default := fun resolved _ =>
          match earlierNumber? resolved "min", earlierNumber? resolved "max" with
          | some least, some most => valueOf (most.sub least)
          | _, _ => .null }),
    ("default",
      { kind := .array
        default := fun resolved _ =>
          .list (["min", "max"].map fun name => valueOf (earlierNumber? resolved name)) })]
  sanitizers := [decoded Value.isList, change fun v =>
    match v with
    | .list items => .list (items.map textToNumber)
    | v => v]
  validators := [requiredCheck, typeCheck fun v => (rangeEnds? v).isSome,
    check fun options v =>
      match rangeEnds? v with
      | some (first, last) => checkRange options first last
      | none => .ok ()]

end ContentSchema.Kinds
