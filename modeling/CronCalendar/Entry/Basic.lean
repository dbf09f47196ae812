import CronCalendar.Calendar.Instant
import CronCalendar.Config
import CronCalendar.Field.Basic

/-!
# Entries

An entry has six fields, `minute hour day-of-month month day-of-week year`, and a search
configuration. An instant matches when every field allows its part of the calendar; the day of the
month and the day of the week must both agree, and seconds play no role. An entry is written as its
six texts with a space between them, and reading splits at any run of blanks.
-/

namespace CronCalendar

inductive ParseError where
  | fieldCount (expression : String) (found : Nat)
  | field (kind : Kind) (fault : Field.Fault)
deriving DecidableEq, Repr

def ParseError.message : ParseError → String
  | .fieldCount expression found =>
    "Invalid cron entry '" ++ expression ++ "': expected 6 fields, found " ++ toString found
  | .field kind .empty => kind.label ++ " field value cannot be empty"
  | .field kind (.part fragment reason) =>
    kind.label ++ " field contains " ++ reason.text ++ ": '" ++ fragment ++ "'"

structure Entry where
  minutes : Field .minute
  hours : Field .hour
  days : Field .dayOfMonth
  months : Field .month
  weekdays : Field .dayOfWeek
  years : Field .year
  config : Config := {}
deriving DecidableEq

namespace Entry

def field (e : Entry) : (k : Kind) → Field k
  | .minute => e.minutes
  | .hour => e.hours
  | .dayOfMonth => e.days
  | .month => e.months
  | .dayOfWeek => e.weekdays
  | .year => e.years

def display (e : Entry) : String :=
  " ".intercalate (Kind.all.map fun k => (e.field k).raw)

def parseField (k : Kind) (text : String) : Except ParseError (Field k) :=
  (Field.parse k text).mapError (.field k)

def ofFields (minute hour dayOfMonth month dayOfWeek year : String) : Except ParseError Entry := do
  let minutes ← parseField .minute minute
  let hours ← parseField .hour hour
  let days ← parseField .dayOfMonth dayOfMonth
  let months ← parseField .month month
  let weekdays ← parseField .dayOfWeek dayOfWeek
  let years ← parseField .year year
  return { minutes, hours, days, months, weekdays, years }

def parse (expression : String) : Except ParseError Entry :=
  match (Text.tokens expression.toList).map String.ofList with
  | [minute, hour, dayOfMonth, month, dayOfWeek, year] =>
    ofFields minute hour dayOfMonth month dayOfWeek year
  | tokens => .error (.fieldCount expression tokens.length)

def withConfig (e : Entry) (config : Config) : Entry := { e with config }

def Fires (e : Entry) (m : Minute) : Prop :=
  m.minute ∈ e.minutes ∧ m.hour ∈ e.hours ∧ m.date.day ∈ e.days ∧ m.date.month ∈ e.months ∧
    m.date.weekday ∈ e.weekdays ∧ 0 ≤ m.date.year ∧ m.date.year.toNat ∈ e.years

instance (e : Entry) (m : Minute) : Decidable (e.Fires m) := by
  unfold Fires; infer_instance

def Matches (e : Entry) (t : Instant) : Prop := e.Fires t.minute

instance (e : Entry) (t : Instant) : Decidable (e.Matches t) :=
  inferInstanceAs (Decidable (e.Fires t.minute))

end Entry

end CronCalendar
