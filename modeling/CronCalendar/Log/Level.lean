import CronCalendar.Text.Blank

/-!
# Log levels

Levels are ordered by severity. `off` is above all of them: as a limit it lets nothing through, and
no record of that level is ever written. Names are read between blanks and without regard to case.
-/

namespace CronCalendar.Log

inductive Level where
  | trace
  | debug
  | info
  | warn
  | error
  | off
deriving DecidableEq, Repr

def keyword (text : String) : String :=
  String.ofList ((Text.trim text.toList).map Char.toLower)

namespace Level

def all : List Level := [.trace, .debug, .info, .warn, .error, .off]

def rank : Level → Nat
  | .trace => 0
  | .debug => 1
  | .info => 2
  | .warn => 3
  | .error => 4
  | .off => 5

def name : Level → String
  | .trace => "TRACE"
  | .debug => "DEBUG"
  | .info => "INFO"
  | .warn => "WARN"
  | .error => "ERROR"
  | .off => "OFF"

def parse? (text : String) : Option Level :=
  match keyword text with
  | "trace" => some .trace
  | "debug" => some .debug
  | "info" => some .info
  | "warn" | "warning" => some .warn
  | "error" => some .error
  | "off" | "none" => some .off
  | _ => none

end Level

end CronCalendar.Log
