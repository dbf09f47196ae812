import CronCalendar.Entry.Value

/-!
# Descriptions of entries

The ways to ask for an entry: by its expression, by six separate texts, or by a data value; and with
a step limit of its own or without.
-/

namespace CronCalendar

inductive Source where
  | expression (text : String)
  | fields (minute hour dayOfMonth month dayOfWeek year : String)
  | value (v : Value)

structure Description where
  source : Source
  maxSteps : Option UInt32 := none

inductive BuildError where
  | parse (error : ParseError)
  | value (error : ValueError)

def Source.build : Source → Except BuildError Entry
  | .expression text => (Entry.parse text).mapError .parse
  | .fields minute hour dayOfMonth month dayOfWeek year =>
    (Entry.ofFields minute hour dayOfMonth month dayOfWeek year).mapError .parse
  | .value v => (Entry.ofValue v).mapError .value

def Description.build (d : Description) : Except BuildError Entry :=
  d.source.build.map fun e =>
    match d.maxSteps with
    | some steps => e.withConfig (({} : Config).withMaxSteps steps)
    | none => e

end CronCalendar
