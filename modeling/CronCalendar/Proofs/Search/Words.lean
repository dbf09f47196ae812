import CronCalendar.Search.Nearest
import Mathlib.Algebra.Group.Int.Defs

/-!
# Searches in machine words

The search is done here in words of 32 bits: years are signed, everything else and the step counter
are unsigned. Each sum, difference and conversion is the same as in the search on numbers of any
size, but its result has to be a word. A result that is none traps, a slot that is not on the
calendar traps, and so does a rejected candidate with no day beyond it.
-/

namespace CronCalendar.Search

inductive Trap where
  | overflow (result : Int)
  | astray
  | edge (candidate : Minute)
deriving DecidableEq

namespace Words

variable {σ : Type}

def unsigned (n : Int) : Except Trap Nat :=
  if 0 ≤ n ∧ n < 2 ^ 32 then .ok n.toNat else .error (.overflow n)

def signed (n : Int) : Except Trap Int :=
  if -2 ^ 31 ≤ n ∧ n < 2 ^ 31 then .ok n else .error (.overflow n)

/-- The number as an unsigned word, if it is one; this conversion is asked for and does not trap. -/
def unsigned? (n : Int) : Option Nat := (unsigned n).toOption

def following (ym : YearMonth) : Except Trap YearMonth :=
  if 12 ≤ ym.month then return ⟨← signed (ym.year + 1), 1⟩
  else return ⟨ym.year, ← unsigned (ym.month + 1)⟩

def preceding (ym : YearMonth) : Except Trap YearMonth :=
  if ym.month ≤ 1 then return ⟨← signed (ym.year - 1), 12⟩
  else return ⟨ym.year, ← unsigned (ym.month - 1)⟩

def arrive (e : Entry) (retry : Minute → σ) (s : Slot) : Except Trap (Move σ) :=
  match s.minute? with
  | some m => return if m.date.weekday ∈ e.weekdays then .found m else .reject m (retry m)
  | none => .error .astray

/-- The counter is raised before the limit `used + left` is looked at. -/
def walk (move : σ → Except Trap (Move σ)) (used : Nat) : Nat → σ → Except Trap Report
  | 0, _ => do
    let steps ← unsigned (used + 1)
    return ⟨.unreachable steps, [.gaveUp steps used]⟩
  | left + 1, position => do
    let steps ← unsigned (used + 1)
    match ← move position with
    | .go next => walk move steps left next
    | .reject candidate next =>
      return (← walk move steps left next).after (.dayRejected candidate)
    | .found trigger => return ⟨.found trigger, []⟩
    | .exhausted year => return ⟨.unreachable steps, [.yearsExhausted year]⟩
    | .astray => .error .astray
    | .edge candidate => .error (.edge candidate)

namespace Forward

open Search.Forward (Position opening)

variable (e : Entry)

def clock? (hour minute : Nat) : Except Trap (Option (Nat × Nat)) :=
  match e.minutes.next? minute with
  | some minute =>
    return (e.hours.next? hour).map fun h => (h, if hour < h then e.minutes.first else minute)
  | none => do
    let hour ← unsigned (hour + 1)
    return (e.hours.next? hour).map fun h => (h, e.minutes.first)

def align (s : Slot) : Except Trap Slot :=
  match e.months.next? s.yearMonth.month with
  | some month =>
    return if s.yearMonth.month < month then opening e ⟨s.yearMonth.year, month⟩ else s
  | none => return opening e ⟨← signed (s.yearMonth.year + 1), e.months.first⟩

def enter (s : Slot) : Except Trap Position :=
  if s.Fits then return .check (← align e s) else return .roll s.yearMonth

def seekDay (ym : YearMonth) (day hour minute : Nat) : Except Trap Position :=
  match e.days.next? day with
  | some d =>
    if day < d then enter e ⟨ym, d, e.hours.first, e.minutes.first⟩
    else enter e ⟨ym, d, hour, minute⟩
  | none => do enter e (opening e (← following ym))

def start (m : Minute) : Except Trap Position := do
  match ← clock? e m.hour m.minute with
  | some (hour, minute) => seekDay e m.date.yearMonth m.date.day hour minute
  | none =>
    seekDay e m.date.yearMonth (← unsigned (m.date.day + 1)) e.hours.first e.minutes.first

def monthAfter (ym : YearMonth) : Except Trap YearMonth := do
  match e.months.next? (← unsigned (ym.month + 1)) with
  | some month => return ⟨ym.year, month⟩
  | none => return ⟨← signed (ym.year + 1), e.months.first⟩

def settle (s : Slot) : Except Trap (Move Position) :=
  if s.Fits then arrive e .retry s
  else return .go (.check (opening e (← monthAfter e s.yearMonth)))

def move : Position → Except Trap (Move Position)
  | .roll ym => return .go (← enter e (opening e (← following ym)))
  | .check s =>
    match e.years.next? ((unsigned? s.yearMonth.year).getD 0) with
    | none => return .exhausted s.yearMonth.year
    | some allowed => do
      let year ← signed allowed
      if s.yearMonth.year < year then settle e (opening e ⟨year, e.months.first⟩)
      else settle e s
  | .retry rejected =>
    match rejected.date.succ? with
    | some date => return .go (← start e date.midnight)
    | none => .error (.edge rejected)

end Forward

namespace Backward

open Search.Backward (Position closing? visit)

variable (e : Entry)

def clock? (hour minute : Nat) : Option (Nat × Nat) :=
  match e.minutes.prev? minute with
  | some minute =>
    (e.hours.prev? hour).map fun h => (h, if h < hour then e.minutes.last else minute)
  | none => ((unsigned? (hour - 1)).bind e.hours.prev?).map fun h => (h, e.minutes.last)

def align (s : Slot) : Except Trap Position :=
  match e.months.prev? s.yearMonth.month with
  | some month =>
    return if month < s.yearMonth.month then visit e ⟨s.yearMonth.year, month⟩
      else .check s.yearMonth (some s)
  | none => return visit e ⟨← signed (s.yearMonth.year - 1), e.months.last⟩

def enter (ym : YearMonth) : Except Trap Position :=
  match closing? e ym with
  | some s => align e s
  | none => return .seek ym

def seekDay (ym : YearMonth) (day hour minute : Nat) : Except Trap Position :=
  match e.days.prev? day with
  | some d =>
    if d < day then align e ⟨ym, d, e.hours.last, e.minutes.last⟩
    else align e ⟨ym, d, hour, minute⟩
  | none => do enter e (← preceding ym)

def start (m : Minute) : Except Trap Position :=
  match clock? e m.hour m.minute with
  | some (hour, minute) => seekDay e m.date.yearMonth m.date.day hour minute
  | none => do
    seekDay e m.date.yearMonth (← unsigned (m.date.day - 1)) e.hours.last e.minutes.last

def monthBefore (ym : YearMonth) : Except Trap YearMonth := do
  match e.months.prev? (← unsigned (ym.month - 1)) with
  | some month => return ⟨ym.year, month⟩
  | none => return ⟨← signed (ym.year - 1), e.months.last⟩

def settle (ym : YearMonth) : Option Slot → Except Trap (Move Position)
  | some s => arrive e .retry s
  | none => return .go (visit e (← monthBefore e ym))

def move : Position → Except Trap (Move Position)
  | .seek ym => return .go (← enter e (← preceding ym))
  | .check ym slot? =>
    match (unsigned? ym.year).bind e.years.prev? with
    | none => return .exhausted ym.year
    | some allowed => do
      let year ← signed allowed
      if year < ym.year then settle e ⟨year, e.months.last⟩ (closing? e ⟨year, e.months.last⟩)
      else settle e ym slot?
  | .retry rejected =>
    match rejected.date.pred? with
    | some date => return .go (← start e date.lastMinute)
    | none => .error (.edge rejected)

end Backward

end Words

end CronCalendar.Search

namespace CronCalendar.Entry

open Search

def walkInWords (e : Entry) (direction : Direction) (limit : Nat) (m : Minute) :
    Except Trap Report :=
  match direction with
  | .forward => do Words.walk (Words.Forward.move e) 0 limit (← Words.Forward.start e m)
  | .backward => do Words.walk (Words.Backward.move e) 0 limit (← Words.Backward.start e m)

def searchInWords (e : Entry) (direction : Direction) (t : Instant) : Except Trap Report :=
  match base? direction t with
  | some m => e.walkInWords direction e.config.maxSteps.toNat m
  | none => .ok ⟨.outOfRange t, []⟩

end CronCalendar.Entry
