import CronCalendar.Search.Walk

/-!
# The search for the next trigger

From a minute on, each field takes its least allowed value that is not below the minute's own. A
field without one starts again at its least value and carries into the next coarser field, and
whenever a coarser field moves on, the finer ones start again. A slot whose day its month lacks
rolls on to the following month; once the day fits, the month and then the year are brought to
allowed values. A candidate on a wrong weekday sends the search to the next midnight.
-/

namespace CronCalendar.Search.Forward

inductive Position where
  | roll (ym : YearMonth)
  | check (s : Slot)
  | retry (rejected : Minute)
deriving DecidableEq

variable (e : Entry)

def opening (ym : YearMonth) : Slot := ⟨ym, e.days.first, e.hours.first, e.minutes.first⟩

def clock? (hour minute : Nat) : Option (Nat × Nat) :=
  match e.minutes.next? minute with
  | some minute =>
    (e.hours.next? hour).map fun h => (h, if hour < h then e.minutes.first else minute)
  | none => (e.hours.next? (hour + 1)).map fun h => (h, e.minutes.first)

def align (s : Slot) : Slot :=
  match e.months.next? s.yearMonth.month with
  | some month =>
    if s.yearMonth.month < month then opening e ⟨s.yearMonth.year, month⟩ else s
  | none => opening e ⟨s.yearMonth.year + 1, e.months.first⟩

def enter (s : Slot) : Position :=
  if s.Fits then .check (align e s) else .roll s.yearMonth

/-- Seeks an allowed day from `day` on; `hour` and `minute` are kept only on that very day. -/
def seekDay (ym : YearMonth) (day hour minute : Nat) : Position :=
  match e.days.next? day with
  | some d =>
    if day < d then enter e ⟨ym, d, e.hours.first, e.minutes.first⟩
    else enter e ⟨ym, d, hour, minute⟩
  | none => enter e (opening e ym.following)

def start (m : Minute) : Position :=
  match clock? e m.hour m.minute with
  | some (hour, minute) => seekDay e m.date.yearMonth m.date.day hour minute
  | none => seekDay e m.date.yearMonth (m.date.day + 1) e.hours.first e.minutes.first

def monthAfter (ym : YearMonth) : YearMonth :=
  match e.months.next? (ym.month + 1) with
  | some month => ⟨ym.year, month⟩
  | none => ⟨ym.year + 1, e.months.first⟩

def settle (s : Slot) : Move Position :=
  if s.Fits then s.arrive e .retry
  else .go (.check (opening e (monthAfter e s.yearMonth)))

def move : Position → Move Position
  | .roll ym => .go (enter e (opening e ym.following))
  | .check s =>
    match e.years.next? s.yearMonth.year.toNat with
    | none => .exhausted s.yearMonth.year
    | some year =>
      if s.yearMonth.year < year then settle e (opening e ⟨year, e.months.first⟩)
      else settle e s
  | .retry rejected =>
    match rejected.date.succ? with
    | some date => .go (start e date.midnight)
    | none => .edge rejected

end CronCalendar.Search.Forward
