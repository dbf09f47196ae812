import CronCalendar.Entry.Basic
import CronCalendar.Search.Report

/-!
# Walking the calendar under a step limit

A search is a walk through positions. Every position costs one step when it is entered, and its move
says what follows: another position, a candidate whose weekday is not allowed, a trigger, or the
end. `walk` counts the steps taken in `used` and recurses on the steps that are left.

A slot is a candidate whose day may not exist in its month; `Slot.minute?` is the check.
-/

namespace CronCalendar.Search

/-- A move goes `astray` where the slot is not on the calendar, and over the `edge` where no day lies
beyond that of the rejected candidate. -/
inductive Move (σ : Type) where
  | go (next : σ)
  | reject (candidate : Minute) (next : σ)
  | found (trigger : Minute)
  | exhausted (year : Int)
  | astray
  | edge (candidate : Minute)

variable {σ : Type}

def walk (move : σ → Move σ) (used : Nat) : Nat → σ → Report
  | 0, _ => ⟨.unreachable (used + 1), [.gaveUp (used + 1) used]⟩
  | left + 1, position =>
    match move position with
    | .go next => walk move (used + 1) left next
    | .reject candidate next => (walk move (used + 1) left next).after (.dayRejected candidate)
    | .found trigger => ⟨.found trigger, []⟩
    | .exhausted year => ⟨.unreachable (used + 1), [.yearsExhausted year]⟩
    | .astray => ⟨.unreachable (used + 1), [.gaveUp (used + 1) (used + 1 + left)]⟩
    | .edge candidate => ⟨.outOfRange candidate.start, []⟩

structure Slot where
  yearMonth : YearMonth
  day : Nat
  hour : Nat
  minute : Nat
deriving DecidableEq, Repr

namespace Slot

def Fits (s : Slot) : Prop := s.day ≤ s.yearMonth.length

instance (s : Slot) : Decidable s.Fits := by unfold Fits; infer_instance

def minute? (s : Slot) : Option Minute :=
  match Date.ofParts? s.yearMonth.year s.yearMonth.month s.day with
  | some date =>
    if h : s.hour < 24 ∧ s.minute < 60 then some ⟨date, s.hour, s.minute, h.1, h.2⟩ else none
  | none => none

def arrive (e : Entry) (retry : Minute → σ) (s : Slot) : Move σ :=
  match s.minute? with
  | some m => if m.date.weekday ∈ e.weekdays then .found m else .reject m (retry m)
  | none => .astray

end Slot

end CronCalendar.Search
