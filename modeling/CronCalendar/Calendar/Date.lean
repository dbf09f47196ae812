import CronCalendar.Calendar.YearMonth

/-!
# Dates

The representable dates run from the first of January of year -262143 to the last of December of
year 262142. Neighbouring days are found by the day of the year, and `dayNumber` counts days on one
line over all years, with 1 for the first of January of year 1, which was a Monday. The weekday is
read off that count.
-/

namespace CronCalendar

def minYear : Int := -262143
def maxYear : Int := 262142

def Date.Valid (year : Int) (month day : Nat) : Prop :=
  (minYear ≤ year ∧ year ≤ maxYear) ∧ (1 ≤ month ∧ month ≤ 12) ∧
    (1 ≤ day ∧ day ≤ YearMonth.length ⟨year, month⟩)

instance (year : Int) (month day : Nat) : Decidable (Date.Valid year month day) := by
  unfold Date.Valid; infer_instance

structure Date where
  year : Int
  month : Nat
  day : Nat
  valid : Date.Valid year month day
deriving DecidableEq

namespace Date

def ofParts? (year : Int) (month day : Nat) : Option Date :=
  if h : Valid year month day then some ⟨year, month, day, h⟩ else none

def yearMonth (d : Date) : YearMonth := ⟨d.year, d.month⟩

/-- Days of the year before the first of the month. From March on the lengths 31, 30, 31, 30, 31
repeat, which the quotient follows; what February lacks of thirty days is taken off. -/
def daysBefore (year : Int) (month : Nat) : Nat :=
  (367 * month - 362) / 12 - (if month ≤ 2 then 0 else if isLeap year then 1 else 2)

def ordinal (d : Date) : Nat := daysBefore d.year d.month + d.day

def ofOrdinal? (year : Int) (n : Nat) : Option Date :=
  let lack := if n + 306 ≤ yearLength year then 0 else if isLeap year then 1 else 2
  let month := (12 * (n + lack) + 361) / 367
  ofParts? year month (n - daysBefore year month)

def succ? (d : Date) : Option Date :=
  if d.ordinal < yearLength d.year then ofOrdinal? d.year (d.ordinal + 1)
  else ofOrdinal? (d.year + 1) 1

def pred? (d : Date) : Option Date :=
  if 1 < d.ordinal then ofOrdinal? d.year (d.ordinal - 1)
  else ofOrdinal? (d.year - 1) (yearLength (d.year - 1))

def dayNumber (d : Date) : Int :=
  let y := d.year - 1
  365 * y + y / 4 - y / 100 + y / 400 + d.ordinal

def weekday (d : Date) : Nat := (d.dayNumber % 7).toNat

end Date

end CronCalendar
