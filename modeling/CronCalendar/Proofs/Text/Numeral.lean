import CronCalendar.Text.Numeral
import Mathlib.Data.Nat.Digits.Defs

/-!
# What numerals denote

A numeral of any length denotes the number that its digits have in the decimal system. `numeral?`
reads all of them, and `word?` those that fit 32 bits: leading zeros take no part in the bound.
-/

namespace CronCalendar.Text

def digit (c : Char) : Nat := c.toNat - '0'.toNat

/-- A nonempty run of ASCII digits, the last of which counts ones. -/
structure Denotes (cs : List Char) (n : Nat) : Prop where
  ne_nil : cs ≠ []
  digits : ∀ c ∈ cs, c.isDigit = true
  value : Nat.ofDigits 10 (cs.reverse.map digit) = n

theorem digitsValue_eq_ofDigits (cs : List Char) :
    digitsValue cs = Nat.ofDigits 10 (cs.reverse.map digit) := by
  rw [digitsValue, Nat.ofDigits_eq_foldr, List.foldr_map, List.foldr_reverse]
  simp only [digit, Nat.cast_id, Nat.add_comm]

theorem numeral?_eq_some_iff {cs : List Char} {n : Nat} : numeral? cs = some n ↔ Denotes cs n := by
  unfold numeral?
  rw [digitsValue_eq_ofDigits]
  constructor
  · intro h
    split at h
    · next hdigits => exact ⟨hdigits.1, List.all_eq_true.mp hdigits.2, Option.some.inj h⟩
    · contradiction
  · rintro ⟨hne, hdigits, rfl⟩
    exact if_pos ⟨hne, List.all_eq_true.mpr hdigits⟩

theorem word?_eq_some_iff {cs : List Char} {n : Nat} :
    word? cs = some n ↔ Denotes cs n ∧ n < UInt32.size := by
  simp only [word?, Option.filter_eq_some_iff, numeral?_eq_some_iff, decide_eq_true_eq]

theorem Denotes.not_mem {cs : List Char} {n : Nat} (h : Denotes cs n) {c : Char}
    (hc : c.isDigit = false) : c ∉ cs := by
  intro hmem
  rw [h.digits c hmem] at hc
  contradiction

end CronCalendar.Text
