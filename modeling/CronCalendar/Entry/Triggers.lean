import CronCalendar.Search.Nearest

/-!
# Successive triggers

`Triggers` is a cursor that walks an entry's triggers in one direction, one search for each step.
After the first search that fails it stays at its end.
-/

namespace CronCalendar

structure Triggers where
  entry : Entry
  direction : Direction
  cursor : Option Instant

namespace Triggers

def next (t : Triggers) : Option Instant × Option Search.Report × Triggers :=
  match t.cursor with
  | none => (none, none, t)
  | some reference =>
    let report := t.entry.search t.direction reference
    let trigger := (report.outcome.answer t.entry.display).toOption
    (trigger, some report, { t with cursor := trigger })

end Triggers

def Entry.triggersFrom (e : Entry) (direction : Direction) (t : Instant) : Triggers :=
  ⟨e, direction, some t⟩

def Entry.upcoming (e : Entry) (t : Instant) : Triggers := e.triggersFrom .forward t

def Entry.preceding (e : Entry) (t : Instant) : Triggers := e.triggersFrom .backward t

end CronCalendar
