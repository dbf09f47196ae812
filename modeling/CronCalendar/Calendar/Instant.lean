import CronCalendar.Calendar.Date
import CronCalendar.Text.Numeral

/-!
# Minutes and instants

Entries fire on whole minutes. A `Minute` is a date with an hour and a minute, and an `Instant` is a
moment inside one: a second, and nanoseconds that may run on past one second, which is how a leap
second is written. Instants carry no time zone.

Order is by elapsed time: first the minutes since the start of year 1, then the second, then the
nanoseconds. A leap second therefore lies before the minute that follows it.
-/

namespace CronCalendar

structure Minute where
  date : Date
  hour : Nat
  minute : Nat
  hour_lt : hour < 24 := by omega
  minute_lt : minute < 60 := by omega
deriving DecidableEq

def Date.midnight (d : Date) : Minute := { date := d, hour := 0, minute := 0 }

def Date.lastMinute (d : Date) : Minute := { date := d, hour := 23, minute := 59 }

namespace Minute

def elapsed (m : Minute) : Int := (m.date.dayNumber * 24 + m.hour) * 60 + m.minute

def succ? (m : Minute) : Option Minute :=
  if h : m.minute + 1 < 60 then
    some { m with minute := m.minute + 1, minute_lt := h }
  else if h : m.hour + 1 < 24 then
    some { m with hour := m.hour + 1, hour_lt := h, minute := 0, minute_lt := by omega }
  else m.date.succ?.map Date.midnight

def pred? (m : Minute) : Option Minute :=
  if 0 < m.minute then
    some { m with minute := m.minute - 1, minute_lt := Nat.lt_of_le_of_lt (Nat.sub_le ..) m.minute_lt }
  else if 0 < m.hour then
    some { m with
      hour := m.hour - 1, hour_lt := Nat.lt_of_le_of_lt (Nat.sub_le ..) m.hour_lt
      minute := 59, minute_lt := by omega }
  else m.date.pred?.map Date.lastMinute

end Minute

def Instant.Valid (second nano : Nat) : Prop := second < 60 ∧ nano < 2000000000

instance (second nano : Nat) : Decidable (Instant.Valid second nano) := by
  unfold Instant.Valid; infer_instance

structure Instant where
  minute : Minute
  second : Nat
  nano : Nat
  valid : Instant.Valid second nano
deriving DecidableEq

def Minute.start (m : Minute) : Instant := ⟨m, 0, 0, by decide⟩

namespace Instant

def ofParts? (year : Int) (month day hour minute second nano : Nat) : Option Instant :=
  match Date.ofParts? year month day with
  | none => none
  | some date =>
    -- a leap second is only put together in the last second of a minute
    if h : hour < 24 ∧ minute < 60 ∧ Valid second nano ∧ (nano < 1000000000 ∨ second = 59) then
      some ⟨⟨date, hour, minute, h.1, h.2.1⟩, second, nano, h.2.2.1⟩
    else none

def Before (a b : Instant) : Prop :=
  a.minute.elapsed < b.minute.elapsed ∨ a.minute.elapsed = b.minute.elapsed ∧
    (a.second < b.second ∨ a.second = b.second ∧ a.nano < b.nano)

instance : LT Instant := ⟨Before⟩

instance (a b : Instant) : Decidable (a < b) :=
  inferInstanceAs (Decidable (a.minute.elapsed < b.minute.elapsed ∨
    a.minute.elapsed = b.minute.elapsed ∧
      (a.second < b.second ∨ a.second = b.second ∧ a.nano < b.nano)))

def displayYear (year : Int) : String :=
  if year < 0 then "-" ++ Text.padded 4 year.natAbs
  else if 9999 < year then "+" ++ Text.padded 4 year.natAbs
  else Text.padded 4 year.natAbs

def displayFraction (nano : Nat) : String :=
  if nano = 0 then ""
  else if nano % 1000000 = 0 then "." ++ Text.padded 3 (nano / 1000000)
  else if nano % 1000 = 0 then "." ++ Text.padded 6 (nano / 1000)
  else "." ++ Text.padded 9 nano

def display (t : Instant) : String :=
  let date := t.minute.date
  let leap := t.nano / 1000000000
  displayYear date.year ++ "-" ++ Text.padded 2 date.month ++ "-" ++ Text.padded 2 date.day ++ " " ++
    Text.padded 2 t.minute.hour ++ ":" ++ Text.padded 2 t.minute.minute ++ ":" ++
    Text.padded 2 (t.second + leap) ++ displayFraction (t.nano % 1000000000)

end Instant

end CronCalendar
