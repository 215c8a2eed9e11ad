import ContentSchema.Calendar.Reader
import ContentSchema.Kinds.Check

/-!
# Dates and times

Dates and moments are stored as milliseconds since the start of 1970, times as milliseconds since
midnight.  Texts are read when a record is stored, and written for messages and keywords.
-/

namespace ContentSchema.Kinds

/-- A 64-bit integer. -/
def millis? (v : Value) : Option Int := v.number?.bind Number.signed?

/-- A text that names a moment becomes its milliseconds. -/
def readMoment (read : String → Option Int) (v : Value) : Value :=
  match v with
  | .string s => ((read s).map Value.ofInt).getD v
  | v => v

/-- The text of a bound, or its digits when it is no moment. -/
def momentText (write : Int → Option String) (bound : Int) : String :=
  (write bound).getD (Number.ofInt bound).text

def checkMoment (write : Int → Option String) (options : Options) (v : Value) :
    Except FieldError Unit :=
  match millis? v with
  | none => .ok ()
  | some moment => do
    if let some first := millis? (options.get "min") then
      ensure (first ≤ moment) ("The value must not be before " ++ momentText write first)
    if let some last := millis? (options.get "max") then
      ensure (moment ≤ last) ("The value must not be after " ++ momentText write last)

/-- A kind of moment with its reader, its writer and the defaults of its bounds. -/
def moment (kind : FieldKind) (read : String → Option Int) (write : Int → Option String)
    (first last : Value) : Specification where
  kind := kind
  type := .shorthand .number
  default := some defaultOption
  options := [requiredOption, optional "default" .number, withDefault "min" .number first,
    withDefault "max" .number last]
  sanitizers := [change (readMoment read)]
  validators := [requiredCheck, typeCheck fun v => (millis? v).isSome, check (checkMoment write)]
  keywords := some fun _ v => ((millis? v).bind write).getD ""

def date : Specification := moment .date Calendar.parseDate? Calendar.dateText? .null .null

/-- A time lies within one day unless other bounds are given. -/
def time : Specification :=
  moment .time Calendar.parseTime? Calendar.timeText? (.number 0)
    (.ofInt (Calendar.millisPerDay - 1))

def dateTime : Specification :=
  moment .dateTime Calendar.parseDateTime? Calendar.dateTimeText? .null .null

end ContentSchema.Kinds
