import ContentSchema.Calendar.Reader
import ContentSchema.Document
import ContentSchema.Text.Hex
import ContentSchema.Text.Split

/-!
# TOML scalars

Texts in four forms of quotes, and the words that are booleans, integers, doubles, dates and times.
A date or time has no value of its own here: it is a map with one member, which is no text.
-/

namespace ContentSchema.Toml

/-- A control character that may not stand in a text or a comment. -/
def isControl (c : Char) : Bool := (c.toNat < 32 && c ≠ '\t') || c.toNat = 127

/-! ### Texts -/

/-- What follows a backslash. -/
def escape? : List Char → Option (Char × List Char)
  | 'b' :: rest => some (Char.ofNat 8, rest)
  | 't' :: rest => some ('\t', rest)
  | 'n' :: rest => some ('\n', rest)
  | 'f' :: rest => some (Char.ofNat 12, rest)
  | 'r' :: rest => some ('\r', rest)
  | 'e' :: rest => some (Char.ofNat 27, rest)
  | '"' :: rest => some ('"', rest)
  | '\\' :: rest => some ('\\', rest)
  | 'x' :: rest => Text.takeHexChar? 2 rest
  | 'u' :: rest => Text.takeHexChar? 4 rest
  | 'U' :: rest => Text.takeHexChar? 8 rest
  | _ => none

/-- The rest after a line break that is escaped: blanks up to the next text are skipped. -/
def skipBreak? (cs : List Char) : Option (List Char) :=
  match cs.dropWhile fun c => c = ' ' || c = '\t' with
  | '\n' :: rest => some (rest.dropWhile fun c => c = ' ' || c = '\t' || c = '\n')
  | _ => none

/-- The end of a text over several lines: three quotes, and up to two more that belong to it. -/
def closing? (quote : Char) (cs : List Char) : Option (List Char × List Char) :=
  let quotes := cs.takeWhile (· = quote)
  if quotes.length < 3 then none
  else
    let own := quotes.take (min 2 (quotes.length - 3))
    some (own, cs.drop (own.length + 3))

/-- The characters of a text up to its closing quote.  Escapes count unless it is `literal`, and
line breaks are allowed if it is `long`. -/
def quoted? (quote : Char) (literal long : Bool) : Nat → List Char → Option (List Char × List Char)
  | 0, _ => none
  | _ + 1, [] => none
  | fuel + 1, c :: cs =>
    match if long then closing? quote (c :: cs) else none with
    | some (own, rest) => some (own, rest)
    | none =>
      if c = quote ∧ !long then some ([], cs)
      else if c = '\\' ∧ !literal then
        match if long then skipBreak? cs else none with
        | some rest => quoted? quote literal long fuel rest
        | none => do
          let (c, rest) ← escape? cs
          let (text, rest) ← quoted? quote literal long fuel rest
          some (c :: text, rest)
      else if isControl c ∧ !(long ∧ c = '\n') then none
      else do
        let (text, rest) ← quoted? quote literal long fuel cs
        some (c :: text, rest)

/-- A text on one line. -/
def shortText? : List Char → Option (String × List Char)
  | '"' :: cs => do
    let (text, rest) ← quoted? '"' false false (cs.length + 1) cs
    some (String.ofList text, rest)
  | '\'' :: cs => do
    let (text, rest) ← quoted? '\'' true false (cs.length + 1) cs
    some (String.ofList text, rest)
  | _ => none

/-- A text over several lines, after its opening quotes; a line break in front does not count. -/
def longText? (quote : Char) (literal : Bool) (cs : List Char) : Option (String × List Char) := do
  let cs := match cs with
    | '\n' :: cs => cs
    | cs => cs
  let (text, rest) ← quoted? quote literal true (cs.length + 1) cs
  some (String.ofList text, rest)

/-- A text in any form. -/
def text? : List Char → Option (String × List Char)
  | '"' :: '"' :: '"' :: cs => longText? '"' false cs
  | '\'' :: '\'' :: '\'' :: cs => longText? '\'' true cs
  | cs => shortText? cs

/-! ### Words -/

/-- The digits of a numeral with underscores between them. -/
def plainDigits? (valid : Char → Bool) (cs : List Char) : Option (List Char) :=
  let pieces := Text.splitChars '_' cs
  if pieces.all fun piece => !piece.isEmpty && piece.all valid then some pieces.flatten else none

/-- Decimal digits without a leading zero. -/
def decimalDigits? (cs : List Char) : Option (List Char) := do
  let digits ← plainDigits? Char.isDigit cs
  if digits.head? = some '0' ∧ 1 < cs.length then none else some digits

/-- An integer of at most 128 bits. -/
def integer? (cs : List Char) : Option Int := do
  let ofDigits (base : Nat) (digits : List Char) : Option Nat :=
    digits.foldlM (fun n c => do
      let d ← Text.hexValue? c
      if d < base then some (base * n + d) else none) 0
  let anyDigit := fun c => (Text.hexValue? c).isSome
  let i ← match cs with
    | '0' :: 'x' :: cs => do some (Int.ofNat (← ofDigits 16 (← plainDigits? anyDigit cs)))
    | '0' :: 'o' :: cs => do some (Int.ofNat (← ofDigits 8 (← plainDigits? anyDigit cs)))
    | '0' :: 'b' :: cs => do some (Int.ofNat (← ofDigits 2 (← plainDigits? anyDigit cs)))
    | cs => do
      let (negative, cs) := Text.takeSign cs
      let n := Int.ofNat (Text.digitsValue (← decimalDigits? cs))
      some (if negative then -n else n)
  if Number.isDoubleWord i then some i else none

/-- A double: digits, and a fraction or an exponent. -/
def real? (cs : List Char) : Option Binary64 := do
  let (negative, cs) := Text.takeSign cs
  let mantissa := cs.takeWhile fun c => c ≠ 'e' && c ≠ 'E'
  let whole := mantissa.takeWhile (· ≠ '.')
  let whole' ← decimalDigits? whole
  let fraction ← match mantissa.drop whole.length with
    | [] => some []
    | _ :: fraction => plainDigits? Char.isDigit fraction
  let exponent ← match cs.drop mantissa.length with
    | [] => if mantissa.length = whole.length then none else some 0
    | _ :: exponent => do
      let (negative, digits) := Text.takeSign exponent
      let n := Int.ofNat (Text.digitsValue (← plainDigits? Char.isDigit digits))
      some (if negative then -n else n)
  Binary64.ofDecimal negative (Text.digitsValue (whole' ++ fraction)) (exponent - fraction.length)

/-- An infinity or the word for "not a number", which no setting takes. -/
def isSpecialReal (cs : List Char) : Bool :=
  let word := (Text.takeSign cs).2
  word = ['i', 'n', 'f'] || word = ['n', 'a', 'n']

/-- A time of day, seconds and their fraction being optional, and the rest. -/
def takeTime? (cs : List Char) : Option (List Char) := do
  let (hour, cs) ← Calendar.takeDigits? 2 cs
  let cs ← Calendar.takeMark? ':' cs
  let (minute, cs) ← Calendar.takeDigits? 2 cs
  let (second, cs) ← match cs with
    | ':' :: cs => do
      let (second, cs) ← Calendar.takeDigits? 2 cs
      let (_, cs) ← Calendar.takeFraction? cs
      some (second, cs)
    | cs => some (0, cs)
  if (Calendar.timeOfDay? hour minute second).isSome then some cs else none

/-- A calendar day at the front, and the rest. -/
def takeDate? (cs : List Char) : Option (List Char) := do
  let (year, cs) ← Calendar.takeDigits? 4 cs
  let cs ← Calendar.takeMark? '-' cs
  let (month, cs) ← Calendar.takeDigits? 2 cs
  let cs ← Calendar.takeMark? '-' cs
  let (day, cs) ← Calendar.takeDigits? 2 cs
  if (Calendar.Date.ofParts? year month day).isSome then some cs else none

/-- A day, a time, or both with or without an offset. -/
def isMoment (cs : List Char) : Bool :=
  match takeDate? cs with
  | some [] => true
  | some (separator :: cs) =>
    (separator = 'T' || separator = 't' || separator = ' ') &&
      match takeTime? cs with
      | some [] => true
      | some cs => (Calendar.takeOffset? cs).any (·.2.isEmpty)
      | none => false
  | none => takeTime? cs = some []

/-- The value of an unquoted word. -/
def word? (cs : List Char) : Option Document :=
  if cs = ['t', 'r', 'u', 'e'] then some (.bool true)
  else if cs = ['f', 'a', 'l', 's', 'e'] then some (.bool false)
  else
    match integer? cs with
    | some i => some (.number (.ofInt i))
    | none =>
      match real? cs with
      | some x => some (.number (.real x))
      | none =>
        if isSpecialReal cs then some (.number (.real .zero))
        else if isMoment cs then some (.map [("moment", .string (String.ofList cs))])
        else none

/-- A character of an unquoted word. -/
def isWordChar (c : Char) : Bool :=
  c.isAlphanum || c = '_' || c = '+' || c = '-' || c = '.' || c = ':'

/-- An unquoted word; a blank may stand between a day and a time. -/
def takeWord (cs : List Char) : List Char × List Char :=
  let word := cs.takeWhile isWordChar
  let rest := cs.dropWhile isWordChar
  match takeDate? word, rest with
  | some [], ' ' :: c :: rest' =>
    if c.isDigit then
      (word ++ ' ' :: (c :: rest').takeWhile isWordChar, (c :: rest').dropWhile isWordChar)
    else (word, rest)
  | _, _ => (word, rest)

end ContentSchema.Toml
