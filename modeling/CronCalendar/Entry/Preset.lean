import CronCalendar.Entry.Basic

/-!
# Common entries

Schedules that have names of their own, in the order in which they are listed, each with the text
that parses to it.
-/

namespace CronCalendar

inductive Preset where
  | everyMinute
  | every5Minutes
  | every15Minutes
  | every30Minutes
  | hourly
  | daily
  | weekly
  | monthly
  | yearly
  | weekdays9am
  | weekends10am
deriving DecidableEq, Repr

namespace Preset

def all : List Preset :=
  [.everyMinute, .every5Minutes, .every15Minutes, .every30Minutes, .hourly, .daily, .weekly,
    .monthly, .yearly, .weekdays9am, .weekends10am]

def expression : Preset → String
  | .everyMinute => "* * * * * *"
  | .every5Minutes => "*/5 * * * * *"
  | .every15Minutes => "*/15 * * * * *"
  | .every30Minutes => "*/30 * * * * *"
  | .hourly => "0 * * * * *"
  | .daily => "0 0 * * * *"
  | .weekly => "0 0 * * 0 *"
  | .monthly => "0 0 1 * * *"
  | .yearly => "0 0 1 1 * *"
  | .weekdays9am => "0 9 * * 1-5 *"
  | .weekends10am => "0 10 * * 0,6 *"

end Preset

end CronCalendar
