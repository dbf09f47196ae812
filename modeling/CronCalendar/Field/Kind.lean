/-!
# Kinds of field

An entry has six fields, in the order of `Kind.all`. Each kind has a label for messages and an
inclusive range of values; Sunday is day 0 of the week.
-/

namespace CronCalendar

inductive Kind where
  | minute
  | hour
  | dayOfMonth
  | month
  | dayOfWeek
  | year
deriving DecidableEq, Repr

namespace Kind

def all : List Kind := [.minute, .hour, .dayOfMonth, .month, .dayOfWeek, .year]

def label : Kind → String
  | .minute => "Minute"
  | .hour => "Hour"
  | .dayOfMonth => "DayOfMonth"
  | .month => "Month"
  | .dayOfWeek => "DayOfWeek"
  | .year => "Year"

def least : Kind → Nat
  | .minute => 0
  | .hour => 0
  | .dayOfMonth => 1
  | .month => 1
  | .dayOfWeek => 0
  | .year => 2000

def greatest : Kind → Nat
  | .minute => 59
  | .hour => 23
  | .dayOfMonth => 31
  | .month => 12
  | .dayOfWeek => 6
  | .year => 2100

def domain (k : Kind) : List Nat := List.range' k.least (k.greatest + 1 - k.least)

theorem mem_domain {k : Kind} {v : Nat} : v ∈ k.domain ↔ k.least ≤ v ∧ v ≤ k.greatest := by
  cases k <;> simp only [domain, least, greatest, List.mem_range'_1] <;> omega

theorem domain_ascending (k : Kind) : k.domain.Pairwise (· < ·) := by
  simpa [domain] using List.pairwise_lt_range' (s := k.least) (n := k.greatest + 1 - k.least)

end Kind

end CronCalendar
