import ContentSchema.Number.Total

/-!
# Calendar

Days and times of the proleptic Gregorian calendar in UTC.  A moment is a whole number of
milliseconds since the start of 1970, and a day number a whole number of days since then.
`yearOf_spec` says that the year found for a day holds the day.
-/

namespace ContentSchema.Calendar

def isLeap (year : Int) : Bool := year % 4 == 0 && (year % 100 != 0 || year % 400 == 0)

/-- Days from the start of the year 1 to the start of a year. -/
def yearStart (year : Int) : Int :=
  365 * (year - 1) + (year - 1) / 4 - (year - 1) / 100 + (year - 1) / 400

/-- Days from the start of the year 1 to the start of 1970. -/
def epoch : Int := 719162

/-- The year of the day `n` days after the start of the year 1: an estimate from the mean length of
a year, which is right or one too low. -/
def yearOf (n : Int) : Int :=
  let estimate := 400 * (n - 2) / 146097 + 1
  if yearStart (estimate + 1) ≤ n then estimate + 1 else estimate

theorem yearOf_spec (n : Int) : yearStart (yearOf n) ≤ n ∧ n < yearStart (yearOf n + 1) := by
  unfold yearOf
  dsimp only
  split
  · refine ⟨by assumption, ?_⟩
    simp only [yearStart] at *
    omega
  · refine ⟨?_, by omega⟩
    simp only [yearStart] at *
    omega

def monthLengths (leap : Bool) : List Nat :=
  [31, if leap then 29 else 28, 31, 30, 31, 30, 31, 31, 30, 31, 30, 31]

structure Date where
  year : Int
  /-- From 1 to 12. -/
  month : Nat
  /-- From 1. -/
  day : Nat
deriving DecidableEq, Repr

/-- The month that holds the day `n` days after the start of the first month, and the day's place
in it; both count from 1. -/
def monthOf : List Nat → Nat → Nat × Nat
  | length :: m :: rest, n =>
    if n < length then (1, n + 1)
    else
      let (month, day) := monthOf (m :: rest) (n - length)
      (month + 1, day)
  | _, n => (1, n + 1)

namespace Date

/-- Days since the start of 1970. -/
def number (d : Date) : Int :=
  yearStart d.year + total ((monthLengths (isLeap d.year)).take (d.month - 1)) + d.day - 1 - epoch

/-- The date of a day number. -/
def ofNumber (n : Int) : Date :=
  let year := yearOf (n + epoch)
  let (month, day) := monthOf (monthLengths (isLeap year)) (n + epoch - yearStart year).toNat
  ⟨year, month, day⟩

/-- The years that dates may have. -/
def yearInRange (year : Int) : Bool := -262143 ≤ year && year ≤ 262142

/-- The date with these parts, if there is one. -/
def ofParts? (year : Int) (month day : Nat) : Option Date :=
  if yearInRange year && 1 ≤ month && 1 ≤ day then
    match (monthLengths (isLeap year))[month - 1]? with
    | some length => if day ≤ length then some ⟨year, month, day⟩ else none
    | none => none
  else none

end Date

/-! ### Moments -/

def millisPerDay : Int := 86400000

/-- Milliseconds since midnight.  The second 60 is a leap second and counts one more. -/
def timeOfDay? (hour minute second : Nat) : Option Int :=
  if hour < 24 ∧ minute < 60 ∧ second ≤ 60 then
    some (((hour * 60 + minute) * 60 + second) * 1000 : Nat)
  else none

/-- The date and the seconds since midnight of a moment within the range of dates. -/
def split? (moment : Int) : Option (Date × Nat) :=
  let date := Date.ofNumber (moment / millisPerDay)
  if Date.yearInRange date.year then some (date, (moment % millisPerDay / 1000).toNat) else none

/-! ### Texts -/

/-- Decimal digits with zeros in front, at least `width` of them. -/
def padded (width n : Nat) : List Char :=
  let digits := Nat.toDigits 10 n
  List.replicate (width - digits.length) '0' ++ digits

/-- Four digits, and a sign in front when the year is outside `0` to `9999`. -/
def yearChars (year : Int) : List Char :=
  let digits := padded 4 year.natAbs
  if 0 ≤ year ∧ year ≤ 9999 then digits else (if year < 0 then '-' else '+') :: digits

def dateChars (d : Date) : List Char :=
  yearChars d.year ++ '-' :: padded 2 d.month ++ '-' :: padded 2 d.day

/-- Hours, minutes and seconds of a number of seconds since midnight. -/
def timeChars (seconds : Nat) : List Char :=
  padded 2 (seconds / 3600) ++ ':' :: padded 2 (seconds / 60 % 60) ++ ':' :: padded 2 (seconds % 60)

/-- The day of a moment. -/
def dateText? (moment : Int) : Option String :=
  (split? moment).map fun (date, _) => String.ofList (dateChars date)

/-- The time of day that lies a number of milliseconds after midnight. -/
def timeText? (millis : Int) : Option String :=
  if 0 ≤ millis ∧ millis < millisPerDay then
    some (String.ofList (timeChars (millis / 1000).toNat))
  else none

/-- The day and the second of a moment. -/
def dateTimeText? (moment : Int) : Option String :=
  (split? moment).map fun (date, seconds) =>
    String.ofList (dateChars date ++ 'T' :: timeChars seconds ++ ['Z'])

end ContentSchema.Calendar
