import CronCalendar.Log.Level
import CronCalendar.Text.Quoted

/-!
# Records and their layouts

A record has a level, a target that names its source, and a message. Three layouts write it as a
line of its own: pretty, compact and JSON. The fourth hands the record on to the host's logger. The
time of a record is given from outside as the text `stamp`.
-/

namespace CronCalendar.Log

structure Record where
  level : Level
  target : String
  message : String
deriving DecidableEq, Repr

inductive Layout where
  | pretty
  | compact
  | json
  | facade
deriving DecidableEq, Repr

namespace Layout

def name : Layout → String
  | .pretty => "pretty"
  | .compact => "compact"
  | .json => "json"
  | .facade => "facade"

def parse? (text : String) : Option Layout :=
  match keyword text with
  | "pretty" => some .pretty
  | "compact" => some .compact
  | "json" => some .json
  | "facade" | "log" => some .facade
  | _ => none

end Layout

namespace Record

/-- `2024-04-01 12:00:00.000 DEBUG [target] message`; the level takes five columns. -/
def pretty (stamp : Option String) (showTarget : Bool) (r : Record) : String :=
  (match stamp with | some stamp => stamp ++ " " | none => "") ++
    String.ofList (r.level.name.toList.rightpad 5 ' ') ++ " " ++
    (if showTarget ∧ r.target ≠ "" then "[" ++ r.target ++ "] " else "") ++ r.message ++ "\n"

def compact (stamp : Option String) (showTarget : Bool) (r : Record) : String :=
  (match stamp with | some stamp => stamp ++ " " | none => "") ++
    String.ofList (r.level.name.toList.take 1) ++ " " ++
    (if showTarget ∧ r.target ≠ "" then r.target ++ ": " else "") ++ r.message ++ "\n"

def json (stamp : String) (r : Record) : String :=
  "\x7b\"timestamp\":" ++ Text.quote stamp ++ ",\"level\":" ++ Text.quote r.level.name ++
    ",\"target\":" ++ Text.quote r.target ++ ",\"message\":" ++ Text.quote r.message ++ "\x7d\n"

end Record

end CronCalendar.Log
