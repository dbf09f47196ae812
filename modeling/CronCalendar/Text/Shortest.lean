/-!
# Shortest decimal text of a binary fraction

`shortest` writes a finite floating-point number with as few significant digits as determine it. Of
several decimals that short it takes the nearest, and of two that are equally near the one with an
even last digit. A number whose leading digit stands between the fifth place after the point and the
sixteenth before it is written positionally, with at least one digit after the point; any other is
written with an exponent, which carries its sign: `1.5e-7`, `1e+16`.

A finite number is `m · 2 ^ q` up to its sign, and the reals that round to it form an interval
around it, with its ends when `m` is even. For up to seventeen digits, the two neighbours of the
number on the grid of decimals with so many digits are tried in exact arithmetic; the first grid
that reaches into the interval gives the digits.
-/

namespace CronCalendar.Text

structure Decimal where
  digits : Nat
  exponent : Int
deriving DecidableEq, Repr

namespace Decimal

def leading (d : Decimal) : Int := d.exponent + ((Nat.toDigits 10 d.digits).length : Int) - 1

def positional (d : Decimal) : String :=
  let places := (-d.exponent).toNat
  let cs := Nat.toDigits 10 (d.digits * Nat.pow 10 d.exponent.toNat)
  let cs := List.replicate (places + 1 - cs.length) '0' ++ cs
  let fraction := cs.drop (cs.length - places)
  String.ofList (cs.take (cs.length - places) ++ '.' :: if fraction = [] then ['0'] else fraction)

def scientific (d : Decimal) : String :=
  let cs := Nat.toDigits 10 d.digits
  let fraction := if cs.length = 1 then [] else '.' :: cs.drop 1
  String.ofList (cs.take 1 ++ fraction ++ ['e', if d.leading < 0 then '-' else '+'] ++
    Nat.toDigits 10 d.leading.natAbs)

def display (d : Decimal) : String :=
  if -5 ≤ d.leading ∧ d.leading < 16 then d.positional else d.scientific

end Decimal

/-- The number `num / den` with the distances to the ends of its rounding interval, over `den`. -/
structure RoundingInterval where
  num : Nat
  den : Nat
  below : Nat
  above : Nat
  closed : Bool

/-- From the bits of a finite double-precision number without its sign. The number below a power of
two is nearer than the one above it, except at the bottom of the range. -/
def RoundingInterval.ofBits (bits : Nat) : RoundingInterval :=
  let fraction := bits % Nat.pow 2 52
  let biased := bits / Nat.pow 2 52
  let m := if biased = 0 then fraction else Nat.pow 2 52 + fraction
  let shift := max biased 1
  let unit := Nat.pow 2 (shift - 1077)
  { num := 4 * m * unit
    den := Nat.pow 2 (1077 - shift)
    below := if fraction = 0 ∧ 1 < biased then unit else 2 * unit
    above := 2 * unit
    closed := m % 2 = 0 }

namespace RoundingInterval

def magnitude (r : RoundingInterval) : Int :=
  if r.den ≤ r.num then ((Nat.toDigits 10 (r.num / r.den)).length : Int) - 1
  else -((Nat.toDigits 10 ((r.den - 1) / r.num)).length : Int)

def scale (r : RoundingInterval) (exponent : Int) : RoundingInterval :=
  let up := Nat.pow 10 (-exponent).toNat
  { r with
    num := r.num * up, below := r.below * up, above := r.above * up
    den := r.den * Nat.pow 10 exponent.toNat }

def Holds (r : RoundingInterval) (n : Nat) : Prop :=
  let x := n * r.den
  if r.closed then r.num ≤ x + r.below ∧ x ≤ r.num + r.above
  else r.num < x + r.below ∧ x < r.num + r.above

instance (r : RoundingInterval) (n : Nat) : Decidable (r.Holds n) := by
  unfold Holds; infer_instance

def whole? (r : RoundingInterval) : Option Nat :=
  let lower := r.num / r.den
  let twice := 2 * (r.num % r.den)
  if r.Holds lower then
    if r.Holds (lower + 1) ∧ (r.den < twice ∨ r.den = twice ∧ lower % 2 = 1) then some (lower + 1)
    else some lower
  else if r.Holds (lower + 1) then some (lower + 1)
  else none

/-- The shortest decimal. The grid above the leading digit comes first, for a number just below a
power of ten, and seventeen digits always suffice. -/
def shortest? (r : RoundingInterval) : Option Decimal :=
  (List.range 18).findSome? fun (n : Nat) =>
    let exponent := r.magnitude + 1 - (n : Int)
    (r.scale exponent).whole?.map (⟨·, exponent⟩)

end RoundingInterval

def shortest (x : Float) : String :=
  let bits := x.toBits.toNat
  let decimal := (RoundingInterval.ofBits (bits % Nat.pow 2 63)).shortest?.getD ⟨0, 0⟩
  (if Nat.pow 2 63 ≤ bits then "-" else "") ++ decimal.display

end CronCalendar.Text
