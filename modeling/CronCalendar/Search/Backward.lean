import CronCalendar.Search.Walk

/-!
# The search for the previous trigger

From a minute back, each field takes its greatest allowed value that is not above the minute's own,
borrowing from the next coarser field where there is none, and whenever a coarser field moves back
the finer ones start at their greatest values. The greatest day depends on the month, and a month
may have no allowed day at all; such a month is left for the one before it. A candidate on a wrong
weekday sends the search to the last minute of the day before.
-/

namespace CronCalendar.Search.Backward

inductive Position where
  | seek (ym : YearMonth)
  | check (ym : YearMonth) (slot? : Option Slot)
  | retry (rejected : Minute)
deriving DecidableEq

variable (e : Entry)

def closing? (ym : YearMonth) : Option Slot :=
  (e.days.prev? ym.length).map fun day => ⟨ym, day, e.hours.last, e.minutes.last⟩

def visit (ym : YearMonth) : Position := .check ym (closing? e ym)

def clock? (hour minute : Nat) : Option (Nat × Nat) :=
  match e.minutes.prev? minute with
  | some minute =>
    (e.hours.prev? hour).map fun h => (h, if h < hour then e.minutes.last else minute)
  | none =>
    if hour = 0 then none else (e.hours.prev? (hour - 1)).map fun h => (h, e.minutes.last)

def align (s : Slot) : Position :=
  match e.months.prev? s.yearMonth.month with
  | some month =>
    if month < s.yearMonth.month then visit e ⟨s.yearMonth.year, month⟩
    else .check s.yearMonth (some s)
  | none => visit e ⟨s.yearMonth.year - 1, e.months.last⟩

def enter (ym : YearMonth) : Position :=
  match closing? e ym with
  | some s => align e s
  | none => .seek ym

/-- Seeks an allowed day from `day` back; `hour` and `minute` are kept only on that very day. -/
def seekDay (ym : YearMonth) (day hour minute : Nat) : Position :=
  match e.days.prev? day with
  | some d =>
    if d < day then align e ⟨ym, d, e.hours.last, e.minutes.last⟩
    else align e ⟨ym, d, hour, minute⟩
  | none => enter e ym.preceding

def start (m : Minute) : Position :=
  match clock? e m.hour m.minute with
  | some (hour, minute) => seekDay e m.date.yearMonth m.date.day hour minute
  | none => seekDay e m.date.yearMonth (m.date.day - 1) e.hours.last e.minutes.last

def monthBefore (ym : YearMonth) : YearMonth :=
  match e.months.prev? (ym.month - 1) with
  | some month => ⟨ym.year, month⟩
  | none => ⟨ym.year - 1, e.months.last⟩

/-- The greatest allowed year that is not above `year`; years below zero have none. -/
def year? (year : Int) : Option Nat :=
  if year < 0 then none else e.years.prev? year.toNat

def settle (ym : YearMonth) : Option Slot → Move Position
  | some s => s.arrive e .retry
  | none => .go (visit e (monthBefore e ym))

def move : Position → Move Position
  | .seek ym => .go (enter e ym.preceding)
  | .check ym slot? =>
    match year? e ym.year with
    | none => .exhausted ym.year
    | some year =>
      if year < ym.year then settle e ⟨year, e.months.last⟩ (closing? e ⟨year, e.months.last⟩)
      else settle e ym slot?
  | .retry rejected =>
    match rejected.date.pred? with
    | some date => .go (start e date.lastMinute)
    | none => .edge rejected

end CronCalendar.Search.Backward
