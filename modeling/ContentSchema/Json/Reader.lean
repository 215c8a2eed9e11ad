import ContentSchema.Document
import ContentSchema.Text.Hex

/-!
# Reading JSON

A strict reader: four kinds of blank, no raw control character and no lone surrogate in a text, no
comma before a closing bracket, and at most `maxNesting` containers inside one another.  Members
keep their order and their repetitions.  Recursion is bounded by the length of the text.
-/

namespace ContentSchema.Json

/-- Greatest number of containers around a value. -/
def maxNesting : Nat := 127

/-- Space, tab, line feed and carriage return. -/
def isSpace (c : Char) : Bool := c = ' ' || c = '\t' || c = '\n' || c = '\r'

def skipSpace (cs : List Char) : List Char := cs.dropWhile isSpace

/-! ### Texts -/

/-- A code point in one or two 16-bit units; a surrogate needs its partner. -/
def readCodePoint? (cs : List Char) : Option (Char × List Char) := do
  let (high, rest) ← Text.takeHex? 4 cs
  if high < 0xD800 ∨ 0xDFFF < high then some (Char.ofNat high, rest)
  else if 0xDBFF < high then none
  else
    match rest with
    | '\\' :: 'u' :: rest => do
      let (low, rest) ← Text.takeHex? 4 rest
      if 0xDC00 ≤ low ∧ low ≤ 0xDFFF then
        some (Char.ofNat (0x10000 + (high - 0xD800) * 0x400 + (low - 0xDC00)), rest)
      else none
    | _ => none

/-- What follows a backslash. -/
def readEscape? : List Char → Option (Char × List Char)
  | '"' :: rest => some ('"', rest)
  | '\\' :: rest => some ('\\', rest)
  | '/' :: rest => some ('/', rest)
  | 'b' :: rest => some (Char.ofNat 8, rest)
  | 'f' :: rest => some (Char.ofNat 12, rest)
  | 'n' :: rest => some ('\n', rest)
  | 'r' :: rest => some ('\r', rest)
  | 't' :: rest => some ('\t', rest)
  | 'u' :: rest => readCodePoint? rest
  | _ => none

/-- The characters up to the closing quote, and what follows it. -/
def readQuoted? : Nat → List Char → Option (List Char × List Char)
  | 0, _ => none
  | _ + 1, [] => none
  | fuel + 1, c :: rest =>
    if c = '"' then some ([], rest)
    else if c = '\\' then do
      let (c, rest) ← readEscape? rest
      let (cs, rest) ← readQuoted? fuel rest
      some (c :: cs, rest)
    else if c.toNat < 32 then none
    else do
      let (cs, rest) ← readQuoted? fuel rest
      some (c :: cs, rest)

/-- A text after its opening quote. -/
def readText? (cs : List Char) : Option (String × List Char) := do
  let (s, rest) ← readQuoted? (cs.length + 1) cs
  some (String.ofList s, rest)

/-! ### Numbers -/

/-- Append digits to a whole number as long as it stays below `2 ^ 64`; the rest is left. -/
def gather (n : Nat) : List Char → Nat × List Char
  | [] => (n, [])
  | d :: ds =>
    let m := 10 * n + (d.toNat - 48)
    if m < wordEnd then gather m ds else (n, d :: ds)

/-- An exponent after its `e`: a sign and at least one digit. -/
def readExponent? (cs : List Char) : Option (Int × List Char) :=
  let (negative, cs) := Text.takeSign cs
  let (ds, rest) := Text.takeDigits cs
  let n : Int := Text.digitsValue ds
  if ds = [] then none else some (if negative then -n else n, rest)

/-- The double with these significant digits, after an optional exponent. -/
def finishReal? (negative : Bool) (digits : Nat) (exponent : Int) (cs : List Char) :
    Option (Number × List Char) := do
  let (exponent, rest) ← match cs with
    | 'e' :: rest | 'E' :: rest => do
      let (e, rest) ← readExponent? rest
      some (exponent + e, rest)
    | rest => some (exponent, rest)
  let x ← Binary64.scaleDecimal negative digits exponent
  some (.real x, rest)

/-- A number: an integer that fits 64 bits, else a double.  Digits that no longer fit the
significand count only as powers of ten, and those of the fraction not at all. -/
def readNumber? (cs : List Char) : Option (Number × List Char) :=
  let (negative, cs) := match cs with
    | '-' :: cs => (true, cs)
    | cs => (false, cs)
  let (whole, rest) := Text.takeDigits cs
  let (n, dropped) := gather 0 whole
  if whole = [] ∨ (whole.head? = some '0' ∧ 1 < whole.length) then none
  else
    match rest with
    | '.' :: rest =>
      let (fraction, rest) := Text.takeDigits rest
      let (m, ignored) := gather n fraction
      if fraction = [] then none
      else
        let exponent : Int := dropped.length - (fraction.length - ignored.length : Nat)
        finishReal? negative m exponent rest
    | 'e' :: _ | 'E' :: _ => finishReal? negative n dropped.length rest
    | _ =>
      if dropped ≠ [] then finishReal? negative n dropped.length rest
      else if negative ∧ (n = 0 ∨ 9223372036854775808 < n) then finishReal? true n 0 rest
      else some (.ofInt (if negative then -(n : Int) else n), rest)

/-! ### Documents -/

/-- The rest after a fixed word. -/
def expect? : List Char → List Char → Option (List Char)
  | [], cs => some cs
  | w :: ws, c :: cs => if w = c then expect? ws cs else none
  | _ :: _, [] => none

mutual

/-- A document at the front of a text; `depth` containers may still open. -/
def readDocument? : Nat → Nat → List Char → Option (Document × List Char)
  | 0, _, _ => none
  | fuel + 1, depth, cs =>
    match skipSpace cs with
    | 'n' :: rest => (expect? ['u', 'l', 'l'] rest).map (.null, ·)
    | 't' :: rest => (expect? ['r', 'u', 'e'] rest).map (.bool true, ·)
    | 'f' :: rest => (expect? ['a', 'l', 's', 'e'] rest).map (.bool false, ·)
    | '"' :: rest => (readText? rest).map fun (s, rest) => (.string s, rest)
    | '[' :: rest =>
      if depth = 0 then none
      else
        match skipSpace rest with
        | ']' :: rest => some (.list [], rest)
        | rest => (readItems? fuel (depth - 1) rest).map fun (ds, rest) => (.list ds, rest)
    | '\x7b' :: rest =>
      if depth = 0 then none
      else
        match skipSpace rest with
        | '\x7d' :: rest => some (.map [], rest)
        | rest => (readMembers? fuel (depth - 1) rest).map fun (ms, rest) => (.map ms, rest)
    | cs => (readNumber? cs).map fun (n, rest) => (.number n, rest)

/-- Items separated by commas, and the closing bracket. -/
def readItems? : Nat → Nat → List Char → Option (List Document × List Char)
  | 0, _, _ => none
  | fuel + 1, depth, cs => do
    let (d, rest) ← readDocument? fuel depth cs
    match skipSpace rest with
    | ',' :: rest => do
      let (ds, rest) ← readItems? fuel depth rest
      some (d :: ds, rest)
    | ']' :: rest => some ([d], rest)
    | _ => none

/-- Members separated by commas, and the closing brace. -/
def readMembers? : Nat → Nat → List Char → Option (List (String × Document) × List Char)
  | 0, _, _ => none
  | fuel + 1, depth, cs =>
    match skipSpace cs with
    | '"' :: rest => do
      let (key, rest) ← readText? rest
      match skipSpace rest with
      | ':' :: rest => do
        let (d, rest) ← readDocument? fuel depth rest
        match skipSpace rest with
        | ',' :: rest => do
          let (ms, rest) ← readMembers? fuel depth rest
          some ((key, d) :: ms, rest)
        | '\x7d' :: rest => some ([(key, d)], rest)
        | _ => none
      | _ => none
    | _ => none

end

/-- The document a whole text holds. -/
def parse? (s : String) : Option Document := do
  let cs := s.toList
  let (d, rest) ← readDocument? (2 * cs.length + 1) maxNesting cs
  if skipSpace rest = [] then some d else none

/-- The value a whole text holds, its objects sorted by key. -/
def parseValue? (s : String) : Option Value := do (← parse? s).toValue?

end ContentSchema.Json
