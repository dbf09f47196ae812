import CronCalendar.Calendar.Instant

/-!
# Reports of a search

A search ends with a trigger, with the number of steps it took without finding one, or at the edge
of the representable dates. On its way it leaves events: one for each day whose weekday rules it
out, and one when it gives up or runs out of years.
-/

namespace CronCalendar

inductive Direction where
  | forward
  | backward
deriving DecidableEq, Repr

inductive SearchError where
  | unreachable (expression : String) (steps : Nat)
  | outOfRange (reference : Instant)
deriving DecidableEq

def SearchError.message : SearchError → String
  | .unreachable expression steps =>
    "No trigger instant reachable for '" ++ expression ++ "' after " ++ toString steps ++
      " search steps"
  | .outOfRange reference => "Reference time out of range: " ++ reference.display

namespace Search

inductive Event where
  | dayRejected (candidate : Minute)
  | gaveUp (steps limit : Nat)
  | yearsExhausted (year : Int)
deriving DecidableEq

inductive Outcome where
  | found (trigger : Minute)
  | unreachable (steps : Nat)
  | outOfRange (reference : Instant)
deriving DecidableEq

def Outcome.answer (expression : String) : Outcome → Except SearchError Instant
  | .found trigger => .ok trigger.start
  | .unreachable steps => .error (.unreachable expression steps)
  | .outOfRange reference => .error (.outOfRange reference)

structure Report where
  outcome : Outcome
  events : List Event
deriving DecidableEq

def Report.after (event : Event) (r : Report) : Report := ⟨r.outcome, event :: r.events⟩

end Search

end CronCalendar
