import CronCalendar.Entry.Triggers
import CronCalendar.Log.Record

/-!
# What entries log

Construction, searches and walks along triggers leave records behind. Rejected days are traced;
everything else is a debug record. The targets name where a record comes from.
-/

namespace CronCalendar.Log

def entryTarget : String := "cronwalk_schedule::entry"
def searchTarget : String := "cronwalk_schedule::search"
def triggersTarget : String := "cronwalk_schedule::iter"

def parsedRecord (e : Entry) : Record :=
  ⟨.debug, entryTarget, "Parsed cron entry '" ++ e.display ++ "'"⟩

def eventRecord (e : Entry) : Search.Event → Record
  | .dayRejected candidate =>
    ⟨.trace, entryTarget,
      candidate.start.display ++ " rejected by day of week '" ++ e.weekdays.raw ++ "'"⟩
  | .gaveUp steps limit =>
    ⟨.debug, searchTarget,
      "Search for '" ++ e.display ++ "' gave up after " ++ toString steps ++ " of " ++
        toString limit ++ " steps"⟩
  | .yearsExhausted year =>
    ⟨.debug, searchTarget,
      "Year field '" ++ e.years.raw ++ "' of '" ++ e.display ++ "' has no allowed year left from " ++
        toString year⟩

def reportRecords (e : Entry) (r : Search.Report) : List Record := r.events.map (eventRecord e)

def endedRecord (e : Entry) (error : SearchError) : Record :=
  ⟨.debug, triggersTarget,
    "Trigger iteration for '" ++ e.display ++ "' ended: " ++ error.message⟩

def stepRecords (e : Entry) (r : Search.Report) : List Record :=
  reportRecords e r ++
    match r.outcome.answer e.display with
    | .ok _ => []
    | .error error => [endedRecord e error]

end CronCalendar.Log
