import ContentSchema.Number.Shortest
import ContentSchema.Text.Blank

/-!
# Numbers

A number is a 64-bit integer (signed or unsigned) or a finite double.  The two stay apart: `5` and
`5.0` are different numbers with different texts, though `Number.same` and the order compare them
by value as doubles.
-/

namespace ContentSchema

/-- The least integer of 64 bits with a sign. -/
abbrev minSigned : Int := -9223372036854775808

/-- The integers of 64 bits with a sign end before this one. -/
abbrev signedEnd : Int := 9223372036854775808

/-- The integers of 64 bits without a sign end before this one. -/
abbrev unsignedEnd : Int := 18446744073709551616

/-- The natural numbers of 64 bits end before this one. -/
abbrev wordEnd : Nat := 18446744073709551616

inductive Number
  /-- A whole number that fits 64 bits, without a sign or with one. -/
  | integer (i : Int) (bounded : minSigned ≤ i ∧ i < unsignedEnd)
  | real (x : Binary64)
deriving DecidableEq

namespace Number

/-- A whole number; beyond 64 bits its nearest double. -/
def ofInt (i : Int) : Number :=
  if h : minSigned ≤ i ∧ i < unsignedEnd then .integer i h else .real (Binary64.ofInt i)

instance : Inhabited Number := ⟨.ofInt 0⟩
instance (n : Nat) : OfNat Number n := ⟨.ofInt n⟩

/-- Whether an integer has at most 128 bits, with a sign or without. -/
def isDoubleWord (i : Int) : Bool :=
  minSigned * unsignedEnd ≤ i && i < unsignedEnd * unsignedEnd

/-- The value rounded to a double. -/
def toBinary64 : Number → Binary64
  | .integer i _ => .ofInt i
  | .real x => x

theorem toBinary64_ofInt (i : Int) : (ofInt i).toBinary64 = .ofInt i := by
  unfold ofInt
  split <;> rfl

/-- The integer, when it has no more than 63 bits and a sign. -/
def signed? : Number → Option Int
  | .integer i _ => if i < signedEnd then some i else none
  | .real _ => none

/-- The integer, when it is not negative. -/
def natural? : Number → Option Nat
  | .integer i _ => if 0 ≤ i then some i.toNat else none
  | .real _ => none

/-- Equality of values as doubles. -/
def same (a b : Number) : Bool := a.toBinary64.same b.toBinary64

/-- Order of values as doubles. -/
def cmp (a b : Number) : Ordering := a.toBinary64.cmp b.toBinary64

/-- The double as a number: an integer if it is whole and below `2 ^ 53` in magnitude. -/
def ofBinary64 (x : Binary64) : Number :=
  if x.isWhole ∧ x.truncate.natAbs < 9007199254740992 then .ofInt x.truncate else .real x

/-- Decimal digits for an integer, the shortest numeral for a double. -/
def text : Number → String
  | .integer i _ => String.ofList ((if i < 0 then ['-'] else []) ++ Binary64.digitsText i.natAbs)
  | .real x => x.text

end Number

/-! ### Numerals inside texts -/

namespace Text

/-- The longest run of decimal digits at the front, and the rest. -/
def takeDigits (cs : List Char) : List Char × List Char :=
  (cs.takeWhile Char.isDigit, cs.dropWhile Char.isDigit)

/-- The value of a run of digits. -/
def digitsValue (cs : List Char) : Nat := cs.foldl (fun n c => 10 * n + (c.toNat - 48)) 0

/-- An optional sign, whether it is minus, and the rest. -/
def takeSign : List Char → Bool × List Char
  | '+' :: cs => (false, cs)
  | '-' :: cs => (true, cs)
  | cs => (false, cs)

/-- A decimal exponent: nothing, or `e` with a sign and digits to the end. -/
def readExponent? : List Char → Option Int
  | [] => some 0
  | c :: cs =>
    let (negative, ds) := takeSign cs
    if (c = 'e' ∨ c = 'E') ∧ ds ≠ [] ∧ ds.all Char.isDigit then
      some (if negative then -(digitsValue ds : Int) else digitsValue ds)
    else none

/-- A finite decimal numeral with at least one digit: sign, digits, point and exponent are
optional.  The result is the nearest double; too large a numeral has none. -/
def readDecimal? (s : String) : Option Binary64 := do
  let (negative, cs) := takeSign s.toList
  let (whole, cs) := takeDigits cs
  let (fraction, cs) := match cs with
    | '.' :: cs => takeDigits cs
    | cs => ([], cs)
  if whole.isEmpty && fraction.isEmpty then none
  let exponent ← readExponent? cs
  Binary64.ofDecimal negative (digitsValue (whole ++ fraction)) (exponent - fraction.length)

/-- The number a text holds between white space. -/
def readNumber? (s : String) : Option Binary64 := readDecimal? (trim s)

/-- A place in a list: decimal digits after an optional plus.  A place that a machine word cannot
hold is behind the end of every list, so it needs no bound. -/
def readIndex? (s : String) : Option Nat :=
  let ds := match s.toList with
    | '+' :: ds => ds
    | ds => ds
  if ds ≠ [] ∧ ds.all Char.isDigit then some (digitsValue ds) else none

/-- A natural number below `2 ^ 64`: decimal digits after an optional plus. -/
def readNatural? (s : String) : Option Nat := (readIndex? s).filter (· < wordEnd)

end Text

end ContentSchema
