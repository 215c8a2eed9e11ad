/-!
# Finite binary floating point

A finite double is a sign and a whole number of units, a unit being the least positive double
`2 ^ (-1074)`.  The neighbours of a number of units lie `gap` units apart, so a number of units is
a double exactly when it is below `limit` and a multiple of its gap.  Every operation computes
the exact quotient and rounds once, to the nearest double and to the even neighbour on a tie;
`none` means that the result is too large.
-/

namespace ContentSchema

/-- A power of two. -/
def powTwo (n : Nat) : Nat := Nat.pow 2 n

theorem powTwo_pos (n : Nat) : 0 < powTwo n := Nat.two_pow_pos n

/-- Units in one. -/
def Binary64.one : Nat := powTwo 1074

/-- Distance in units between neighbouring doubles in the binade of `n`. -/
def Binary64.gap (n : Nat) : Nat := powTwo (n.log2 - 52)

/-- Units in `2 ^ 1024`, the least magnitude that is too large. -/
def Binary64.limit : Nat := powTwo 2098

/-- The numbers of units that are doubles. -/
def Binary64.Representable (n : Nat) : Prop := n < Binary64.limit ∧ n % Binary64.gap n = 0

instance (n : Nat) : Decidable (Binary64.Representable n) :=
  inferInstanceAs (Decidable (_ ∧ _))

theorem Binary64.gap_pos (n : Nat) : 0 < Binary64.gap n := powTwo_pos _

theorem Binary64.limit_pos : 0 < Binary64.limit := powTwo_pos 2098

theorem Binary64.representable_zero : Binary64.Representable 0 := ⟨limit_pos, Nat.zero_mod _⟩

/-- A finite double; the sign of zero counts. -/
structure Binary64 where
  /-- Whether the sign is minus. -/
  negative : Bool
  /-- The magnitude in units of `2 ^ (-1074)`. -/
  units : Nat
  representable : Binary64.Representable units
deriving DecidableEq

namespace Binary64

/-- The nearest whole number to `num / den`; the even one of two. -/
def roundHalfEven (num den : Nat) : Nat :=
  let q := num / den
  let r := num % den
  if 2 * r < den then q else if den < 2 * r then q + 1 else if q % 2 = 0 then q else q + 1

/-- The double nearest to `num / den` units, or `none` beyond the largest. -/
def ofUnitRatio (negative : Bool) (num den : Nat) : Option Binary64 :=
  let g := gap (num / den)
  let n := roundHalfEven num (den * g) * g
  if h : Representable n then some ⟨negative, n, h⟩ else none

/-- The double nearest to `num / den`. -/
def ofRatio (negative : Bool) (num den : Nat) : Option Binary64 :=
  ofUnitRatio negative (num * one) den

/-- Zero with a sign. -/
def signedZero (negative : Bool) : Binary64 := ⟨negative, 0, representable_zero⟩

/-- Positive zero. -/
def zero : Binary64 := signedZero false

instance : Inhabited Binary64 := ⟨zero⟩

/-- The exact value in units, with its sign; both zeros are `0`. -/
def scaled (x : Binary64) : Int := if x.negative then -(x.units : Int) else x.units

/-- The double nearest to a whole number. -/
def ofInt? (i : Int) : Option Binary64 := ofRatio (i < 0) i.natAbs 1

/-- The double nearest to a whole number of at most 1024 bits. -/
def ofInt (i : Int) : Binary64 := (ofInt? i).getD zero

def neg (x : Binary64) : Binary64 := { x with negative := !x.negative }

/-- Order by exact value. -/
def cmp (x y : Binary64) : Ordering := compare x.scaled y.scaled

/-- Equality of exact values; the two zeros are equal. -/
def same (x y : Binary64) : Bool := x.scaled == y.scaled

/-- Whether the value is a whole number. -/
def isWhole (x : Binary64) : Bool := x.units % one == 0

/-- The value without its fraction. -/
def truncate (x : Binary64) : Int :=
  let n : Int := (x.units / one : Nat)
  if x.negative then -n else n

/-- The nearest whole number, a half going away from zero. -/
def roundHalfAway (x : Binary64) : Int :=
  let n : Int := ((2 * x.units + one) / (2 * one) : Nat)
  if x.negative then -n else n

def mul (x y : Binary64) : Option Binary64 :=
  ofUnitRatio (x.negative != y.negative) (x.units * y.units) one

/-- Quotient; the divisor is not zero. -/
def div (x y : Binary64) : Option Binary64 :=
  ofRatio (x.negative != y.negative) x.units y.units

def sub (x y : Binary64) : Option Binary64 :=
  let d := x.scaled - y.scaled
  ofUnitRatio (d < 0) d.natAbs 1

/-- Number of decimal digits; none for zero. -/
def digitCount (n : Nat) : Nat := if n = 0 then 0 else (Nat.toDigits 10 n).length

/-- The double nearest to `digits · 10 ^ exponent`. -/
def ofDecimal (negative : Bool) (digits : Nat) (exponent : Int) : Option Binary64 :=
  let magnitude := exponent + digitCount digits
  if digits = 0 ∨ magnitude < -330 then some (signedZero negative)
  else if 310 < magnitude then none
  else if 0 ≤ exponent then ofRatio negative (digits * Nat.pow 10 exponent.toNat) 1
  else ofRatio negative digits (Nat.pow 10 (-exponent).toNat)

/-- The double nearest to `10 ^ n`, for `n ≤ 308`. -/
def powerOfTen (n : Nat) : Binary64 := (ofDecimal false 1 n).getD zero

/-- `digits · 10 ^ exponent`, rounded first to a double and then once more for each factor of at
most `10 ^ 308`.  A small exponent takes two factors at most: after these the value is zero. -/
def scaleDecimal (negative : Bool) (digits : Nat) (exponent : Int) : Option Binary64 := do
  let whole ← ofRatio negative digits 1
  if digits = 0 then return whole
  if exponent < -616 then return signedZero negative
  if exponent < -308 then
    let scaled ← whole.div (powerOfTen 308)
    return ← scaled.div (powerOfTen (-(exponent + 308)).toNat)
  if exponent < 0 then return ← whole.div (powerOfTen (-exponent).toNat)
  if 308 < exponent then none
  whole.mul (powerOfTen exponent.toNat)

@[simp] theorem scaled_zero : zero.scaled = 0 := rfl

theorem same_iff {x y : Binary64} : same x y = true ↔ x.scaled = y.scaled := by
  simp [same]

end Binary64

end ContentSchema
