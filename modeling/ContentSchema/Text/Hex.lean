/-!
# Hexadecimal digits

Reading a fixed number of hexadecimal digits, and the character of a code point.
-/

namespace ContentSchema.Text

/-- The value of a hexadecimal digit. -/
def hexValue? (c : Char) : Option Nat :=
  if '0' ≤ c ∧ c ≤ '9' then some (c.toNat - 48)
  else if 'a' ≤ c ∧ c ≤ 'f' then some (c.toNat - 87)
  else if 'A' ≤ c ∧ c ≤ 'F' then some (c.toNat - 55)
  else none

/-- The value of exactly `width` hexadecimal digits, continuing from `n`. -/
def takeHexFrom? (n : Nat) : Nat → List Char → Option (Nat × List Char)
  | 0, rest => some (n, rest)
  | width + 1, c :: rest => do takeHexFrom? (16 * n + (← hexValue? c)) width rest
  | _ + 1, [] => none

/-- The value of exactly `width` hexadecimal digits at the front, and the rest. -/
def takeHex? (width : Nat) (cs : List Char) : Option (Nat × List Char) := takeHexFrom? 0 width cs

/-- The character of a code point that is no surrogate. -/
def charOf? (n : Nat) : Option Char := if n.isValidChar then some (Char.ofNat n) else none

/-- The character whose code point stands in exactly `width` hexadecimal digits. -/
def takeHexChar? (width : Nat) (cs : List Char) : Option (Char × List Char) := do
  let (n, rest) ← takeHex? width cs
  some (← charOf? n, rest)

end ContentSchema.Text
