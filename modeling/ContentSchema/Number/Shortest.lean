import ContentSchema.Number.Binary64

/-!
# Shortest decimal digits

The decimal numeral with the fewest digits that rounds to a given double, the nearest of those,
and its notation.  On the grid of `k` significant digits only the two neighbours of the value can
qualify when any point does, so it is enough to try these for `k = 1, 2, …, 17`.
-/

namespace ContentSchema.Binary64

/-- `digits · 10 ^ exponent`. -/
structure Decimal where
  digits : Nat
  exponent : Int
deriving DecidableEq, Repr

/-- Move factors of ten from the digits into the exponent. -/
def Decimal.strip : Nat → Decimal → Decimal
  | 0, d => d
  | fuel + 1, d =>
    if d.digits % 10 = 0 ∧ d.digits ≠ 0 then strip fuel ⟨d.digits / 10, d.exponent + 1⟩ else d

/-- `a / b` as a fraction scaled by a power of ten: numerator and denominator. -/
def scaleByTen (num den : Nat) (e : Int) : Nat × Nat :=
  if 0 ≤ e then (num * Nat.pow 10 e.toNat, den) else (num, den * Nat.pow 10 (-e).toNat)

/-- The greatest `e` near `guess` with `10 ^ e ≤ n / one`. -/
def decimalExponent (n : Nat) : Int :=
  let guess : Int := (((n.log2 : Int) - 1074) * 30103) / 100000
  let fits (e : Int) : Bool :=
    let (num, den) := scaleByTen n one (-e)
    den ≤ num
  if fits (guess + 1) then guess + 1 else if fits guess then guess else guess - 1

/-- Whether `d · 10 ^ p` rounds to the double of `n` units. -/
def readsBack (n d : Nat) (p : Int) : Bool :=
  let g := gap n
  -- The distance to the neighbour below is halved at the start of a binade.
  let below := if n = powTwo n.log2 ∧ 1 < g then g / 2 else g
  let (num, den) := scaleByTen (2 * d * one) 1 p
  let even := n / g % 2 == 0
  -- Twice the candidate against the midpoints on both sides, in units times four.
  let low := (4 * n - 2 * below) * den
  let high := (4 * n + 2 * g) * den
  let x := 2 * num
  if even then low ≤ x && x ≤ high else low < x && x < high

/-- The candidate with `k` digits that reads back, the nearer one of two; on a tie the even. -/
def candidate (n : Nat) (e : Int) (k : Nat) : Option Decimal :=
  let p := e - (k - 1 : Nat)
  let (num, den) := scaleByTen n one (-p)
  let lower := num / den
  let r := num % den
  let nearer := if 2 * r < den then lower else if den < 2 * r then lower + 1
    else if lower % 2 = 0 then lower else lower + 1
  let other := if nearer = lower then lower + 1 else lower
  if readsBack n nearer p then some ⟨nearer, p⟩
  else if readsBack n other p then some ⟨other, p⟩
  else none

/-- All digits of `n` units; a unit is `5 ^ 1074 / 10 ^ 1074`. -/
def exactDecimal (n : Nat) : Decimal := ⟨n * Nat.pow 5 1074, -1074⟩

/-- The shortest decimal that reads back as `n` units, `0 < n`. -/
def shortest (n : Nat) : Decimal :=
  let e := decimalExponent n
  let found := (List.range 17).findSome? fun k => candidate n e (k + 1)
  (found.getD (exactDecimal n)).strip 20

/-- Digits of a numeral. -/
def digitsText (n : Nat) : List Char := Nat.toDigits 10 n

/-- Positional notation from `1e-5` up to below `1e16`, always with a point; beyond these one digit
before the point and a signed exponent. -/
def decimalText (d : Decimal) : List Char :=
  let ds := digitsText d.digits
  let e : Int := d.exponent + (ds.length - 1 : Nat)
  if -5 ≤ e ∧ e < 16 then
    if 0 ≤ e then
      let whole := e.toNat + 1
      if ds.length ≤ whole then ds ++ List.replicate (whole - ds.length) '0' ++ ['.', '0']
      else ds.take whole ++ '.' :: ds.drop whole
    else ['0', '.'] ++ List.replicate ((-e).toNat - 1) '0' ++ ds
  else
    let fraction := if ds.length ≤ 1 then [] else '.' :: ds.drop 1
    let sign := if e < 0 then '-' else '+'
    ds.take 1 ++ fraction ++ 'e' :: sign :: digitsText e.natAbs

/-- The text of a double. -/
def text (x : Binary64) : String :=
  let body := if x.units = 0 then ['0', '.', '0'] else decimalText (shortest x.units)
  String.ofList (if x.negative then '-' :: body else body)

end ContentSchema.Binary64
