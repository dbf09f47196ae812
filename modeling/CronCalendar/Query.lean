import CronCalendar.Entry.Description
import CronCalendar.Log.Trail

/-!
# Queries

The questions an entry answers, as data. Each answer comes with the records that finding it left
behind, and with the entry as the next question will see it: two queries change its configuration.

A series asks a cursor for so many triggers in a row. A tour moves from trigger to trigger, and a
move that fails stays where it is.
-/

namespace CronCalendar

inductive Query where
  | seek (direction : Direction) (reference : Instant)
  | fires (t : Instant)
  | series (direction : Direction) (reference : Instant) (count : Nat)
  | tour (reference : Instant) (moves : List Direction)
  | configure (config : Config)
  | field (kind : Kind)

inductive Answer where
  | trigger (t : Except SearchError Instant)
  | truth (b : Bool)
  | series (ts : List (Option Instant))
  | tour (ts : List (Except SearchError Instant))
  | budget (steps : UInt32)
  | field (kind : Kind) (f : Field kind)

open Log

def Triggers.take : Nat → Triggers → List (Option Instant) × List Record
  | 0, _ => ([], [])
  | n + 1, t =>
    let (trigger, report, t) := t.next
    let records := match report with
      | some r => stepRecords t.entry r
      | none => []
    let (triggers, more) := t.take n
    (trigger :: triggers, records ++ more)

namespace Entry

def tour (e : Entry) : Instant → List Direction → List (Except SearchError Instant) × List Record
  | _, [] => ([], [])
  | here, direction :: moves =>
    let report := e.search direction here
    let answer := report.outcome.answer e.display
    let (answers, records) := e.tour (answer.toOption.getD here) moves
    (answer :: answers, reportRecords e report ++ records)

structure Reply where
  answer : Answer
  records : List Record
  entry : Entry

def ask (e : Entry) : Query → Reply
  | .seek direction reference =>
    let report := e.search direction reference
    ⟨.trigger (report.outcome.answer e.display), reportRecords e report, e⟩
  | .fires t => ⟨.truth (e.Matches t), [], e⟩
  | .series direction reference count =>
    let (triggers, records) := (e.triggersFrom direction reference).take count
    ⟨.series triggers, records, e⟩
  | .tour reference moves =>
    let (answers, records) := e.tour reference moves
    ⟨.tour answers, records, e⟩
  | .configure config => ⟨.budget config.maxSteps, [], e.withConfig config⟩
  | .field kind => ⟨.field kind (e.field kind), [], e⟩

def askAll : Entry → List Query → List Reply
  | _, [] => []
  | e, q :: qs =>
    let reply := e.ask q
    reply :: askAll reply.entry qs

end Entry

def Description.records (d : Description) : List Record :=
  match d.build with
  | .ok e => [parsedRecord e]
  | .error _ => []

end CronCalendar
