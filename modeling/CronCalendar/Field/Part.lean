import CronCalendar.Field.Kind
import CronCalendar.Text.Numeral
import CronCalendar.Text.Split

/-!
# Parts of a field

A field is a list of parts between commas. A part is `*`, a number or a range `lo-hi`, and may be
followed by a slash and a step. It stands for the values `start, start + step, …` up to `stop`; a
number with a step runs to the greatest value of its kind, and a number alone is only itself.

`Part.parse` names the first thing wrong with a part, in a fixed order: an empty base, the step, the
characters of the base, and last its bounds. A numeral beyond 32 bits counts as no numeral at all.
-/

namespace CronCalendar

inductive Reason where
  | emptyValue
  | invalidStep
  | unexpectedCharacter
  | rangeBelowMinimum
  | rangeAboveMaximum
  | reversedRange
  | valueBelowMinimum
  | valueAboveMaximum
deriving DecidableEq, Repr

def Reason.text : Reason → String
  | .emptyValue => "empty value"
  | .invalidStep => "invalid step"
  | .unexpectedCharacter => "unexpected character"
  | .rangeBelowMinimum => "range starting below minimum"
  | .rangeAboveMaximum => "range ending above maximum"
  | .reversedRange => "reversed range"
  | .valueBelowMinimum => "value below minimum"
  | .valueAboveMaximum => "value above maximum"

structure Part where
  start : Nat
  stop : Nat
  step : Nat
deriving DecidableEq, Repr

namespace Part

def Admits (p : Part) (v : Nat) : Prop :=
  p.start ≤ v ∧ v ≤ p.stop ∧ (v - p.start) % p.step = 0

instance (p : Part) (v : Nat) : Decidable (p.Admits v) := by
  unfold Admits; infer_instance

theorem admits_iff {p : Part} {v : Nat} :
    p.Admits v ↔ v ≤ p.stop ∧ ∃ n, v = p.start + n * p.step := by
  constructor
  · rintro ⟨hstart, hstop, hmod⟩
    refine ⟨hstop, (v - p.start) / p.step, ?_⟩
    have := Nat.div_add_mod (v - p.start) p.step
    rw [hmod, Nat.mul_comm] at this
    omega
  · rintro ⟨hstop, n, rfl⟩
    exact ⟨Nat.le_add_right .., hstop, by simp⟩

def parseBase (k : Kind) (stepped : Bool) (base : List Char) : Except Reason (Nat × Nat) :=
  if base = ['*'] then .ok (k.least, k.greatest)
  else
    match Text.cut? '-' base with
    | some (lo, hi) =>
      match Text.word? lo, Text.word? hi with
      | some lo, some hi =>
        if lo < k.least then .error .rangeBelowMinimum
        else if k.greatest < hi then .error .rangeAboveMaximum
        else if hi < lo then .error .reversedRange
        else .ok (lo, hi)
      | _, _ => .error .unexpectedCharacter
    | none =>
      match Text.word? base with
      | some n =>
        if n < k.least then .error .valueBelowMinimum
        else if k.greatest < n then .error .valueAboveMaximum
        else .ok (n, if stepped then k.greatest else n)
      | none => .error .unexpectedCharacter

def parseStep (text : List Char) : Except Reason Nat :=
  match Text.word? text with
  | some n => if 0 < n then .ok n else .error .invalidStep
  | none => .error .invalidStep

def parse (k : Kind) (text : List Char) : Except Reason Part :=
  match Text.cut? '/' text with
  | none =>
    if text = [] then .error .emptyValue
    else do
      let (start, stop) ← parseBase k false text
      return ⟨start, stop, 1⟩
  | some (base, step) =>
    if base = [] then .error .emptyValue
    else do
      let step ← parseStep step
      let (start, stop) ← parseBase k true base
      return ⟨start, stop, step⟩

end Part

end CronCalendar
