/-!
# Decimal numerals

A numeral is a nonempty run of ASCII digits; leading zeros are allowed and there is no sign.
`word?` reads the numerals that fit an unsigned 32-bit word, which is the width of every number an
entry or a step budget may name. `padded` writes a number with at least a given count of digits.
-/

namespace CronCalendar.Text

def digitsValue (cs : List Char) : Nat :=
  cs.foldl (fun n c => 10 * n + (c.toNat - '0'.toNat)) 0

def numeral? (cs : List Char) : Option Nat :=
  if cs ≠ [] ∧ cs.all Char.isDigit then some (digitsValue cs) else none

def word? (cs : List Char) : Option Nat :=
  (numeral? cs).filter (· < UInt32.size)

theorem lt_of_word?_eq_some {cs : List Char} {n : Nat} (h : word? cs = some n) : n < UInt32.size := by
  simp only [word?, Option.filter_eq_some_iff, decide_eq_true_eq] at h
  exact h.2

def padded (width n : Nat) : String :=
  let digits := Nat.toDigits 10 n
  String.ofList (List.replicate (width - digits.length) '0' ++ digits)

end CronCalendar.Text
