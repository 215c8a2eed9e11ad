import ContentSchema.Calendar
import ContentSchema.Number

/-!
# Reading dates and times

A layout is a sequence of numbers and marks.  A number may follow blanks and may lack leading
zeros, and a year may have a sign, which it needs beyond four digits.  The internet form
(RFC 3339) has numbers of fixed width, a fraction of a second and an offset from UTC.
-/

namespace ContentSchema.Calendar

/-- One part of a layout. -/
inductive Part
  /-- A number of at most two digits. -/
  | number
  /-- A number of at most four digits, or a sign and any number of digits. -/
  | year
  | mark (c : Char)
  /-- Any run of blanks, also an empty one. -/
  | gap
deriving DecidableEq, Repr

/-- At least one digit and at most `width`. -/
def takeNumber? (width : Nat) (cs : List Char) : Option (Nat × List Char) :=
  let digits := (cs.take width).takeWhile Char.isDigit
  if digits.isEmpty then none else some (Text.digitsValue digits, cs.drop digits.length)

/-- A year at the front of a text. -/
def takeYear? : List Char → Option (Int × List Char)
  | '-' :: cs => (takeNumber? cs.length cs).map fun (n, rest) => (-n, rest)
  | '+' :: cs => (takeNumber? cs.length cs).map fun (n, rest) => (n, rest)
  | cs => (takeNumber? 4 cs).map fun (n, rest) => (n, rest)

/-- The numbers of a text that follows a layout to its end. -/
def readLayout? : List Part → List Char → Option (List Int)
  | [], [] => some []
  | [], _ :: _ => none
  | .number :: parts, cs => do
    let (n, rest) ← takeNumber? 2 (cs.dropWhile Text.isBlank)
    (readLayout? parts rest).map ((n : Int) :: ·)
  | .year :: parts, cs => do
    let (n, rest) ← takeYear? (cs.dropWhile Text.isBlank)
    (readLayout? parts rest).map (n :: ·)
  | .mark c :: parts, d :: rest => if c = d then readLayout? parts rest else none
  | .mark _ :: _, [] => none
  | .gap :: parts, cs => readLayout? parts (cs.dropWhile Text.isBlank)

def dateLayout : List Part := [.year, .mark '-', .number, .mark '-', .number]

def minuteLayout : List Part := [.number, .mark ':', .number]

def secondLayout : List Part := minuteLayout ++ [.mark ':', .number]

/-- The start of the day a text names. -/
def readDate? (cs : List Char) : Option Int :=
  match readLayout? dateLayout cs with
  | some [year, month, day] =>
    (Date.ofParts? year month.toNat day.toNat).map (·.number * millisPerDay)
  | _ => none

/-- The milliseconds since midnight of a time with or without seconds. -/
def readTime? (cs : List Char) : Option Int :=
  match readLayout? secondLayout cs with
  | some [hour, minute, second] => timeOfDay? hour.toNat minute.toNat second.toNat
  | _ =>
    match readLayout? minuteLayout cs with
    | some [hour, minute] => timeOfDay? hour.toNat minute.toNat 0
    | _ => none

/-- The moment of a date and a time with seconds, `separator` between them. -/
def readLocal? (separator : Part) (cs : List Char) : Option Int :=
  match readLayout? (dateLayout ++ separator :: secondLayout) cs with
  | some [year, month, day, hour, minute, second] => do
    let date ← Date.ofParts? year month.toNat day.toNat
    let time ← timeOfDay? hour.toNat minute.toNat second.toNat
    some (date.number * millisPerDay + time)
  | _ => none

/-! ### The internet form -/

/-- Exactly `width` digits. -/
def takeDigits? (width : Nat) (cs : List Char) : Option (Nat × List Char) :=
  let digits := cs.take width
  if digits.length = width ∧ digits.all Char.isDigit then
    some (Text.digitsValue digits, cs.drop width)
  else none

def takeMark? (c : Char) : List Char → Option (List Char)
  | d :: rest => if c = d then some rest else none
  | [] => none

/-- A fraction of a second in milliseconds, further digits cut off; nothing without a point. -/
def takeFraction? : List Char → Option (Nat × List Char)
  | '.' :: cs =>
    let (digits, rest) := Text.takeDigits cs
    if digits.isEmpty then none
    else some (Text.digitsValue ((digits ++ ['0', '0']).take 3), rest)
  | cs => some (0, cs)

/-- The milliseconds by which local time is ahead of UTC: `Z`, or a sign, hours and minutes. -/
def takeOffset? : List Char → Option (Int × List Char)
  | 'Z' :: rest | 'z' :: rest => some (0, rest)
  | sign :: cs => do
    if sign ≠ '+' ∧ sign ≠ '-' ∧ sign ≠ '\u2212' then none
    let (hours, cs) ← takeDigits? 2 cs
    let cs ← takeMark? ':' cs
    let (minutes, rest) ← takeDigits? 2 cs
    if hours < 24 ∧ minutes < 60 then
      let millis : Int := ((hours * 60 + minutes) * 60000 : Nat)
      some (if sign = '+' then millis else -millis, rest)
    else none
  | [] => none

/-- The moment a text in the internet form names. -/
def readInternet? (cs : List Char) : Option Int := do
  let (year, cs) ← takeDigits? 4 cs
  let cs ← takeMark? '-' cs
  let (month, cs) ← takeDigits? 2 cs
  let cs ← takeMark? '-' cs
  let (day, cs) ← takeDigits? 2 cs
  let (separator, cs) ← match cs with
    | c :: cs => some (c, cs)
    | [] => none
  if separator ≠ 'T' ∧ separator ≠ 't' ∧ separator ≠ ' ' then none
  let (hour, cs) ← takeDigits? 2 cs
  let cs ← takeMark? ':' cs
  let (minute, cs) ← takeDigits? 2 cs
  let cs ← takeMark? ':' cs
  let (second, cs) ← takeDigits? 2 cs
  let (fraction, cs) ← takeFraction? cs
  let (offset, cs) ← takeOffset? cs
  if !cs.isEmpty then none
  let date ← Date.ofParts? year month day
  let time ← timeOfDay? hour minute second
  some (date.number * millisPerDay + time + fraction - offset)

/-! ### Moments -/

/-- The whole number a text holds, no further from zero than 64 bits reach. -/
def readMillis? (s : String) : Option Int := do
  let x ← Text.readNumber? s
  if x.isWhole then some (max minSigned (min (signedEnd - 1) x.truncate)) else none

/-- A day: milliseconds, a date, or the internet form. -/
def parseDate? (s : String) : Option Int :=
  let cs := (Text.trim s).toList
  (readMillis? s).or ((readDate? cs).or (readInternet? cs))

/-- A time of day: milliseconds, or a time with or without seconds. -/
def parseTime? (s : String) : Option Int := (readMillis? s).or (readTime? (Text.trim s).toList)

/-- A moment: milliseconds, the internet form, or a date and a time in UTC. -/
def parseDateTime? (s : String) : Option Int :=
  let cs := (Text.trim s).toList
  (readMillis? s).or ((readInternet? cs).or ((readLocal? .gap cs).or (readLocal? (.mark 'T') cs)))

end ContentSchema.Calendar
