import CronCalendar.Text.Blank
import CronCalendar.Text.Numeral

/-!
# Search configuration

One query may take a limited number of steps. The limit is a 32-bit word; it is 5000 unless the
variable `CRONWALK_MAX_SEARCH_STEPS` names another. Between blanks, the variable holds a positive
numeral with at most one plus sign before it; any other text is ignored.
-/

namespace CronCalendar

structure Config where
  maxSteps : UInt32 := 5000
deriving DecidableEq, Repr

namespace Config

def stepsVariable : String := "CRONWALK_MAX_SEARCH_STEPS"

def withMaxSteps (c : Config) (steps : UInt32) : Config :=
  { c with maxSteps := if steps = 0 then 1 else steps }

def withoutPlus : List Char → List Char
  | '+' :: cs => cs
  | cs => cs

def parseSteps? (text : String) : Option UInt32 :=
  match Text.word? (withoutPlus (Text.trim text.toList)) with
  | some n => if 0 < n then some (UInt32.ofNat n) else none
  | none => none

def ofLookup (lookup : String → Option String) : Config :=
  match (lookup stepsVariable).bind parseSteps? with
  | some steps => { maxSteps := steps }
  | none => {}

end Config

end CronCalendar
