import CronCalendar.Entry.Basic
import CronCalendar.Text.Shortest

/-!
# Entries as data values

An entry is stored as its text. Reading it back from a data value takes a text and refuses every
other kind of value by naming what it found; a text that is no entry is refused with the reason.
-/

namespace CronCalendar

inductive Value where
  | null
  | boolean (b : Bool)
  | integer (n : Int)
  | real (x : Float)
  | text (s : String)
  | sequence
  | mapping

def Value.described : Value → String
  | .null => "null"
  | .boolean b => "boolean `" ++ (if b then "true" else "false") ++ "`"
  | .integer n => "integer `" ++ toString n ++ "`"
  | .real x => "floating point `" ++ Text.shortest x ++ "`"
  | .text _ => "string"
  | .sequence => "sequence"
  | .mapping => "map"

inductive ValueError where
  | notText (found : Value)
  | refused (error : ParseError)

def ValueError.message : ValueError → String
  | .notText found => "invalid type: " ++ found.described ++ ", expected a string"
  | .refused error => error.message

namespace Entry

def toValue (e : Entry) : Value := .text e.display

def ofValue : Value → Except ValueError Entry
  | .text s => (parse s).mapError .refused
  | found => .error (.notText found)

end Entry

end CronCalendar
