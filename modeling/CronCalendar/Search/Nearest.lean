import CronCalendar.Search.Backward
import CronCalendar.Search.Forward

/-!
# Next and previous triggers

The next trigger is sought from the minute after that of the reference. The previous one is sought
from the minute of the reference itself when the reference lies past its start, and from the minute
before otherwise. Where that minute is not representable the reference is out of range.
-/

namespace CronCalendar.Entry

open Search

/-- The minute from which triggers strictly after or before `t` are sought. -/
def base? : Direction → Instant → Option Minute
  | .forward, t => t.minute.succ?
  | .backward, t => if t.minute.start < t then some t.minute else t.minute.pred?

def walk (e : Entry) (direction : Direction) (limit : Nat) (m : Minute) : Report :=
  match direction with
  | .forward => Search.walk (Forward.move e) 0 limit (Forward.start e m)
  | .backward => Search.walk (Backward.move e) 0 limit (Backward.start e m)

def search (e : Entry) (direction : Direction) (t : Instant) : Report :=
  match base? direction t with
  | some m => e.walk direction e.config.maxSteps.toNat m
  | none => ⟨.outOfRange t, []⟩

def seek (e : Entry) (direction : Direction) (t : Instant) : Except SearchError Instant :=
  (e.search direction t).outcome.answer e.display

def nextAfter (e : Entry) (t : Instant) : Except SearchError Instant := e.seek .forward t

def prevBefore (e : Entry) (t : Instant) : Except SearchError Instant := e.seek .backward t

end CronCalendar.Entry
