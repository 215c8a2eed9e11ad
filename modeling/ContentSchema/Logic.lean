import ContentSchema.Error
import ContentSchema.Json.Text
import ContentSchema.Path
import ContentSchema.Pattern.Reader

/-!
# Conditional logic

Conditions on other values of a record, combined by `$every` and `$some`.  A condition names the
value it tests by a reference from the field that carries the logic, and compares it with a literal
or by a rule of operators.  `matches` answers for a record or names a reference that leads nowhere.
-/

namespace ContentSchema

/-- Operators on one value; every one that is present must hold. -/
structure Rule where
  eq : Option Value := none
  ne : Option Value := none
  gt : Option Value := none
  gte : Option Value := none
  lt : Option Value := none
  lte : Option Value := none
  regexp : Option String := none
deriving DecidableEq, Inhabited

/-- A test of one value. -/
inductive Condition
  | rule (r : Rule)
  | literal (v : Value)
deriving DecidableEq, Inhabited

/-- A tree of conditions. -/
inductive Logic
  /-- All branches hold. -/
  | all (branches : List Logic)
  /-- Some branch holds. -/
  | any (branches : List Logic)
  /-- The value at each reference passes its test. -/
  | conditions (tests : List (String × Condition))
deriving Inhabited

/-! ### Testing a value -/

namespace Value

/-- The order of two values of one primitive type; a list on the left counts by its length.
Nothing else compares. -/
def compare? (left right : Value) : Option Ordering :=
  match left, right with
  | .list items, .number n => some ((Binary64.ofInt items.length).cmp n.toBinary64)
  | .number a, .number b => some (a.cmp b)
  | .string a, .string b => some (if a < b then .lt else if a = b then .eq else .gt)
  | .bool a, .bool b => some (compare a.toNat b.toNat)
  | _, _ => none

end Value

namespace Rule

/-- Whether an ordering operator that may be absent holds. -/
def ordered (value : Value) (operand : Option Value) (accept : Ordering → Bool) : Bool :=
  match operand with
  | some right => (value.compare? right).any accept
  | none => true

def test (r : Rule) (value : Value) : Bool :=
  r.eq.all (value.same ·) && r.ne.all (!value.same ·) &&
    ordered value r.gt Ordering.isGT && ordered value r.gte Ordering.isGE &&
    ordered value r.lt Ordering.isLT && ordered value r.lte Ordering.isLE &&
    r.regexp.all fun pattern =>
      match value with
      | .string s => Pattern.search pattern s
      | _ => false

/-- The operators that are present with their operands, in the order in which they are tested. -/
def operators (r : Rule) : List (String × Value) :=
  [("eq", r.eq), ("ne", r.ne), ("gt", r.gt), ("gte", r.gte), ("lt", r.lt), ("lte", r.lte),
    ("regexp", r.regexp.map .string)].filterMap fun (name, operand) => operand.map (name, ·)

end Rule

def Condition.test (c : Condition) (value : Value) : Bool :=
  match c with
  | .literal expected => value.same expected
  | .rule r => r.test value

/-! ### Reading logic -/

namespace Condition

def operatorNames : List String := ["eq", "ne", "gt", "gte", "lt", "lte", "regexp"]

/-- Set one operator of a rule. -/
def setOperator (r : Rule) (name : String) (operand : Value) : Except LogicError Rule :=
  match name with
  | "eq" => .ok { r with eq := some operand }
  | "ne" => .ok { r with ne := some operand }
  | "gt" => .ok { r with gt := some operand }
  | "gte" => .ok { r with gte := some operand }
  | "lt" => .ok { r with lt := some operand }
  | "lte" => .ok { r with lte := some operand }
  | _ =>
    match operand with
    | .string pattern => .ok { r with regexp := some pattern }
    | other => .error (.malformed ("'regexp' expects a string, got " ++ Json.text other))

/-- The rule with the given operators. -/
def setOperators (r : Rule) : List (String × Value) → Except LogicError Rule
  | [] => .ok r
  | (name, operand) :: rest =>
    match setOperator r name operand with
    | .ok r => setOperators r rest
    | .error e => .error e

/-- A test: an object of operators only is a rule, anything else a literal. -/
def ofValue (v : Value) : Except LogicError Condition :=
  match v with
  | .object (m :: ms) =>
    if (m :: ms).all (operatorNames.contains ·.1) then
      match setOperators {} (m :: ms) with
      | .ok r => .ok (.rule r)
      | .error e => .error e
    else .ok (.literal v)
  | v => .ok (.literal v)

end Condition

namespace Logic

/-- The tests of a condition map; a key that starts with `$` is none. -/
def readTests : List (String × Value) → Except LogicError (List (String × Condition))
  | [] => .ok []
  | (reference, test) :: rest =>
    if reference.toList.head? = some '$' then
      .error (.malformed ("unexpected combinator '" ++ reference ++ "'"))
    else
      match Condition.ofValue test with
      | .error e => .error e
      | .ok c =>
        match readTests rest with
        | .error e => .error e
        | .ok tests => .ok ((reference, c) :: tests)

mutual

/-- Read logic from a value. -/
def ofValue : Value → Except LogicError Logic
  | .object [(key, branches)] =>
    if key = "$every" then
      match branches with
      | .list items => (ofValues items).map .all
      | _ => .error (.malformed "'$every' expects an array")
    else if key = "$some" then
      match branches with
      | .list items => (ofValues items).map .any
      | _ => .error (.malformed "'$some' expects an array")
    else (readTests [(key, branches)]).map .conditions
  | .object tests => (readTests tests).map .conditions
  | v => .error (.malformed ("expected an object, got " ++ Json.text v))

def ofValues : List Value → Except LogicError (List Logic)
  | [] => .ok []
  | v :: vs =>
    match ofValue v with
    | .error e => .error e
    | .ok l =>
      match ofValues vs with
      | .error e => .error e
      | .ok ls => .ok (l :: ls)

end

/-! ### Evaluation -/

/-- Whether all tests hold for the field at `path`, up to the first that fails. -/
def testsHold (record : Value) (path : Path) : List (String × Condition) → Except LogicError Bool
  | [] => .ok true
  | (reference, condition) :: rest =>
    let resolved := path.resolve reference
    match resolved.lookup record with
    | none => .error (.missingDependency path.text reference resolved.text)
    | some value => if condition.test value then testsHold record path rest else .ok false

mutual

/-- Whether the logic of the field at `path` holds in a record.  Branches are evaluated in order,
and no further than the answer needs. -/
def matches? (record : Value) (path : Path) : Logic → Except LogicError Bool
  | .all branches => allMatch record path branches
  | .any branches => anyMatches record path branches
  | .conditions tests => testsHold record path tests

def allMatch (record : Value) (path : Path) : List Logic → Except LogicError Bool
  | [] => .ok true
  | l :: ls =>
    match matches? record path l with
    | .error e => .error e
    | .ok false => .ok false
    | .ok true => allMatch record path ls

def anyMatches (record : Value) (path : Path) : List Logic → Except LogicError Bool
  | [] => .ok false
  | l :: ls =>
    match matches? record path l with
    | .error e => .error e
    | .ok true => .ok true
    | .ok false => anyMatches record path ls

end

end Logic

end ContentSchema
