import CronCalendar.Field.Part

/-!
# Fields

A field keeps the text it was read from and the values that text allows, in ascending order and
without repetition. The values are the members of the kind's range that some part admits, so how a
set is written has no influence on the list. A field can only be had from a text that is one: the
type holds the evidence.

A field has a least and a greatest allowed value, and for any number the nearest allowed value on
either side, the number itself counting as nearest.
-/

namespace CronCalendar

inductive Field.Fault where
  | empty
  | part (fragment : String) (reason : Reason)
deriving DecidableEq, Repr

namespace Field

def parseParts (k : Kind) : List (List Char) → Except Fault (List Part)
  | [] => .ok []
  | text :: texts =>
    match Part.parse k text with
    | .error reason => .error (.part (String.ofList text) reason)
    | .ok part => (parseParts k texts).map (part :: ·)

def expand (k : Kind) (parts : List Part) : List Nat :=
  k.domain.filter fun v => parts.any fun p => p.Admits v

def valuesOf (k : Kind) (text : String) : Except Fault (List Nat) :=
  if text = "" then .error .empty
  else (parseParts k (Text.pieces (· = ',') text.toList)).map (expand k)

end Field

structure Field (k : Kind) where
  raw : String
  values : List Nat
  values_of_raw : Field.valuesOf k raw = .ok values

namespace Field

variable {k : Kind}

theorem eq_of_raw_eq {f g : Field k} (h : f.raw = g.raw) : f = g := by
  obtain ⟨raw, values, hf⟩ := f
  obtain ⟨raw', values', hg⟩ := g
  cases h
  have : Except.ok (ε := Fault) values = .ok values' := hf.symm.trans hg
  cases this
  rfl

instance : DecidableEq (Field k) := fun f g =>
  if h : f.raw = g.raw then .isTrue (eq_of_raw_eq h)
  else .isFalse fun hfg => h (congrArg raw hfg)

def parse (k : Kind) (text : String) : Except Fault (Field k) :=
  match h : valuesOf k text with
  | .ok values => .ok ⟨text, values, h⟩
  | .error fault => .error fault

theorem parse_eq_ok_iff {text : String} {f : Field k} : parse k text = .ok f ↔ f.raw = text := by
  constructor
  · intro h
    unfold parse at h
    split at h
    · cases h; rfl
    · contradiction
  · rintro rfl
    have hf := f.values_of_raw
    unfold parse
    split
    · next values h =>
      exact congrArg Except.ok (eq_of_raw_eq rfl)
    · next fault h => rw [hf] at h; contradiction

theorem parse_eq_error_iff {text : String} {fault : Fault} :
    parse k text = .error fault ↔ valuesOf k text = .error fault := by
  unfold parse
  split
  · next values h => simp [h]
  · next other h => simp [h]

def first (f : Field k) : Nat := f.values.headD 0

def last (f : Field k) : Nat := f.values.getLastD 0

def next? (f : Field k) (v : Nat) : Option Nat := (f.values.dropWhile (· < v)).head?

def prev? (f : Field k) (v : Nat) : Option Nat := (f.values.takeWhile (· ≤ v)).getLast?

instance : Membership Nat (Field k) := ⟨fun f v => v ∈ f.values⟩

instance (v : Nat) (f : Field k) : Decidable (v ∈ f) :=
  inferInstanceAs (Decidable (v ∈ f.values))

end Field

end CronCalendar
