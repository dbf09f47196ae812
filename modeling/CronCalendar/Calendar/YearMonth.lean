/-!
# Months of the proleptic Gregorian calendar

A month of a year, with its length and its two neighbours. Years run through zero and below it, and
the rule for leap years holds for all of them. Nothing here bounds the year: a search may look at a
month just outside the representable dates before it is told to stop.
-/

namespace CronCalendar

def isLeap (year : Int) : Bool :=
  (year % 4 == 0 && year % 100 != 0) || year % 400 == 0

structure YearMonth where
  year : Int
  month : Nat
deriving DecidableEq, Repr

namespace YearMonth

def length (ym : YearMonth) : Nat :=
  match ym.month with
  | 2 => if isLeap ym.year then 29 else 28
  | 4 | 6 | 9 | 11 => 30
  | _ => 31

def following (ym : YearMonth) : YearMonth :=
  if 12 ≤ ym.month then ⟨ym.year + 1, 1⟩ else ⟨ym.year, ym.month + 1⟩

def preceding (ym : YearMonth) : YearMonth :=
  if ym.month ≤ 1 then ⟨ym.year - 1, 12⟩ else ⟨ym.year, ym.month - 1⟩

end YearMonth

def yearLength (year : Int) : Nat := if isLeap year then 366 else 365

end CronCalendar
