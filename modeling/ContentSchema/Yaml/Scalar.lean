import ContentSchema.Value

/-!
# Plain scalars

The value of an unquoted YAML word under the core schema: null, a boolean, an integer in one of
four bases, a double, or else the word itself as a text.
-/

namespace ContentSchema.Yaml

def isNullWord (s : String) : Bool := s = "null" || s = "Null" || s = "NULL" || s = "~"

def bool? (s : String) : Option Bool :=
  if s = "true" ∨ s = "True" ∨ s = "TRUE" then some true
  else if s = "false" ∨ s = "False" ∨ s = "FALSE" then some false
  else none

/-- The value of a digit in a base of at most 16. -/
def digitValue? (base : Nat) (c : Char) : Option Nat :=
  let n := c.toNat
  let d := if 48 ≤ n ∧ n ≤ 57 then n - 48 else if 97 ≤ n ∧ n ≤ 102 then n - 87
    else if 65 ≤ n ∧ n ≤ 70 then n - 55 else base
  if d < base then some d else none

/-- The value of a run of at least one digit. -/
def digits? (base : Nat) : List Char → Option Nat
  | [] => none
  | c :: cs => (c :: cs).foldlM (fun n c => (digitValue? base c).map (base * n + ·)) 0

/-- A zero followed by more digits: a text, not a number. -/
def isPaddedNumeral (cs : List Char) : Bool :=
  match (Text.takeSign cs).2 with
  | '0' :: d :: ds => (d :: ds).all Char.isDigit
  | _ => false

/-- An integer: a sign and digits, with `0x`, `0o` or `0b` in front for another base. -/
def int? (cs : List Char) : Option Int :=
  let (negative, ds) := Text.takeSign cs
  let magnitude := match ds with
    | '0' :: 'x' :: ds => digits? 16 ds
    | '0' :: 'o' :: ds => digits? 8 ds
    | '0' :: 'b' :: ds => digits? 2 ds
    | ds => if isPaddedNumeral cs then none else digits? 10 ds
  magnitude.map fun n => if negative then -(n : Int) else n

/-- A double; an infinity or the word for "not a number" has no finite value. -/
inductive Real
  | finite (x : Binary64)
  | other

def real? (s : String) : Option Real :=
  let cs := s.toList
  let unsigned := match cs with
    | '+' :: cs => cs
    | cs => cs
  if [".inf", ".Inf", ".INF"].contains (String.ofList unsigned) then some .other
  else if ["-.inf", "-.Inf", "-.INF", ".nan", ".NaN", ".NAN"].contains s then some .other
  else if cs ≠ unsigned ∧ (unsigned.head? = some '+' ∨ unsigned.head? = some '-') then none
  else (Text.readDecimal? (String.ofList unsigned)).map .finite

/-- The value of a plain word; `none` for an integer of 65 to 128 bits, which no value holds. -/
def resolve? (s : String) : Option Value :=
  let cs := s.toList
  if cs = [] ∨ isNullWord s then some .null
  else
    match bool? s with
    | some b => some (.bool b)
    | none =>
      let asReal : Option Value :=
        if isPaddedNumeral cs then some (.string s)
        else
          match real? s with
          | some (.finite x) => some (.number (.real x))
          | some .other => some .null
          | none => some (.string s)
      match int? cs with
      | some i =>
        if h : minSigned ≤ i ∧ i < unsignedEnd then some (.number (.integer i h))
        else if Number.isDoubleWord i then none
        else asReal
      | none => asReal

end ContentSchema.Yaml
