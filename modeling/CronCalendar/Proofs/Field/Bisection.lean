import CronCalendar.Proofs.Field.Values
import Mathlib.Order.Bounds.Defs

/-!
# Nearest allowed values

The values of a field are ascending, so a place among them can be found by halving. A cut tells of
each number whether it lies below what is sought, is it, or lies above, and `bisect` halves the
places that are left until it stands at the cut. The least value from a number on is found where the
values below the number end, the greatest value up to it one place before those up to it end, and
both are the ones that the queries give.
-/

namespace CronCalendar

namespace Ascending

/-- Looks at the places from `lo` up to `hi` and gives one that is sought, or where it would be. -/
def bisect (cut : Nat → Ordering) (l : List Nat) (lo hi : Nat) (hhi : hi ≤ l.length) :
    Except Nat Nat :=
  if h : lo < hi then
    have hmid : lo + (hi - lo) / 2 < l.length := by omega
    match cut l[lo + (hi - lo) / 2] with
    | .lt => bisect cut l (lo + (hi - lo) / 2 + 1) hi hhi
    | .eq => .ok (lo + (hi - lo) / 2)
    | .gt => bisect cut l lo (lo + (hi - lo) / 2) (Nat.le_of_lt hmid)
  else .error lo
termination_by hi - lo

structure Cut (cut : Nat → Ordering) : Prop where
  below : ∀ {a b : Nat}, a ≤ b → cut b = .lt → cut a = .lt
  above : ∀ {a b : Nat}, a ≤ b → cut a = .gt → cut b = .gt

def splitPoint (p : Nat → Bool) (l : List Nat) : Nat :=
  match bisect (fun x => if p x then .lt else .gt) l 0 l.length (Nat.le_refl _) with
  | .ok place => place
  | .error place => place

def search (v : Nat) (l : List Nat) : Except Nat Nat :=
  bisect (compare · v) l 0 l.length (Nat.le_refl _)

variable {l : List Nat} {cut : Nat → Ordering} {p : Nat → Bool} {lo hi i : Nat}

theorem le_of_mem_take_succ (hl : l.Pairwise (· < ·)) (hi : i < l.length) :
    ∀ x ∈ l.take (i + 1), x ≤ l[i] := by
  intro x hx
  rw [List.take_succ_eq_append_getElem hi] at hx
  have hpairs := hl.sublist (List.take_sublist (i + 1) l)
  rw [List.take_succ_eq_append_getElem hi] at hpairs
  rcases List.mem_append.mp hx with hx | hx
  · exact Nat.le_of_lt ((List.pairwise_append.mp hpairs).2.2 x hx l[i] List.mem_cons_self)
  · exact Nat.le_of_eq (List.mem_singleton.mp hx)

theorem le_of_mem_drop (hl : l.Pairwise (· < ·)) (hi : i < l.length) :
    ∀ x ∈ l.drop i, l[i] ≤ x := by
  intro x hx
  have hpairs := hl.sublist (List.drop_sublist i l)
  rw [List.drop_eq_getElem_cons hi] at hx hpairs
  rcases List.mem_cons.mp hx with rfl | hx
  · exact Nat.le_refl _
  · exact Nat.le_of_lt ((List.pairwise_cons.mp hpairs).1 x hx)

/-- What stands before `lo` is below the cut and what stands from `hi` on is above it, and each step
keeps it so. -/
theorem bisect_spec (hcut : Cut cut) (hl : l.Pairwise (· < ·)) (hhi : hi ≤ l.length)
    (hle : lo ≤ hi) (hbelow : ∀ x ∈ l.take lo, cut x = .lt)
    (habove : ∀ x ∈ l.drop hi, cut x = .gt) :
    match bisect cut l lo hi hhi with
    | .ok place => ∃ x ∈ l, cut x = .eq ∧ l[place]? = some x
    | .error place => place ≤ l.length ∧
        (∀ x ∈ l.take place, cut x = .lt) ∧ ∀ x ∈ l.drop place, cut x = .gt := by
  fun_induction bisect cut l lo hi hhi with
  | case1 lo hi hhi hlt hmid hcase ih =>
    exact ih (by omega) (fun x hx => hcut.below (le_of_mem_take_succ hl hmid x hx) hcase) habove
  | case2 lo hi hhi hlt hmid hcase =>
    exact ⟨_, List.getElem_mem hmid, hcase, List.getElem?_eq_getElem hmid⟩
  | case3 lo hi hhi hlt hmid hcase ih =>
    exact ih (by omega) hbelow fun x hx => hcut.above (le_of_mem_drop hl hmid x hx) hcase
  | case4 lo hi hhi hnot =>
    obtain rfl : lo = hi := by omega
    exact ⟨hhi, hbelow, habove⟩

theorem bisect_all_spec (hcut : Cut cut) (hl : l.Pairwise (· < ·)) :
    match bisect cut l 0 l.length (Nat.le_refl _) with
    | .ok place => ∃ x ∈ l, cut x = .eq ∧ l[place]? = some x
    | .error place => place ≤ l.length ∧
        (∀ x ∈ l.take place, cut x = .lt) ∧ ∀ x ∈ l.drop place, cut x = .gt :=
  bisect_spec hcut hl _ (Nat.zero_le _) (by simp) (by simp)

theorem cut_of_test (hp : ∀ {a b : Nat}, a ≤ b → p b = true → p a = true) :
    Cut fun x => if p x then .lt else .gt where
  below := by
    intro a b hab hb
    have hb : p b = true := by simpa using hb
    simp [hp hab hb]
  above := by
    intro a b hab ha
    have ha : p a = false := by simpa using ha
    have hb : p b = false := Bool.eq_false_iff.mpr fun hb => by simp [hp hab hb] at ha
    simp [hb]

theorem while_append {before behind : List Nat} (hbefore : ∀ x ∈ before, p x = true)
    (hbehind : ∀ x ∈ behind, p x = false) :
    (before ++ behind).takeWhile p = before ∧ (before ++ behind).dropWhile p = behind := by
  rw [List.takeWhile_append_of_pos hbefore, List.dropWhile_append_of_pos hbefore]
  cases behind with
  | nil => simp
  | cons x xs => simp [hbehind x List.mem_cons_self]

theorem splitPoint_spec (hl : l.Pairwise (· < ·))
    (hp : ∀ {a b : Nat}, a ≤ b → p b = true → p a = true) :
    splitPoint p l ≤ l.length ∧
      l.takeWhile p = l.take (splitPoint p l) ∧ l.dropWhile p = l.drop (splitPoint p l) := by
  have hspec := bisect_all_spec (cut_of_test hp) hl
  unfold splitPoint
  split at hspec
  · obtain ⟨x, -, hx, -⟩ := hspec
    split at hx <;> contradiction
  · next place hplace =>
    obtain ⟨hle, hbelow, habove⟩ := hspec
    have hwhile := while_append (p := p) (by simpa using hbelow) (by simpa using habove)
    rw [List.take_append_drop] at hwhile
    rw [hplace]
    exact ⟨hle, hwhile⟩

theorem cut_compare (v : Nat) : Cut (compare · v) where
  below := by
    intro a b hab hb
    rw [Nat.compare_eq_lt] at hb ⊢
    exact Nat.lt_of_le_of_lt hab hb
  above := by
    intro a b hab ha
    rw [Nat.compare_eq_gt] at ha ⊢
    exact Nat.lt_of_lt_of_le ha hab

theorem search_isOk_iff (hl : l.Pairwise (· < ·)) {v : Nat} :
    (search v l).isOk = true ↔ v ∈ l := by
  have hspec := bisect_all_spec (cut_compare v) hl
  unfold search
  split at hspec
  · next place hplace =>
    obtain ⟨x, hmem, hx, -⟩ := hspec
    rw [hplace, ← Nat.compare_eq_eq.mp hx]
    exact iff_of_true rfl hmem
  · next place hplace =>
    obtain ⟨-, hbelow, habove⟩ := hspec
    rw [hplace]
    refine iff_of_false Bool.false_ne_true fun hmem => ?_
    rw [← List.take_append_drop place l] at hmem
    have hself : compare v v = .eq := Nat.compare_eq_eq.mpr rfl
    rcases List.mem_append.mp hmem with hmem | hmem
    · rw [hbelow v hmem] at hself
      contradiction
    · rw [habove v hmem] at hself
      contradiction

end Ascending

namespace Field

variable {k : Kind}

def nextByHalves? (f : Field k) (v : Nat) : Option Nat :=
  f.values[Ascending.splitPoint (· < v) f.values]?

def prevByHalves? (f : Field k) (v : Nat) : Option Nat :=
  let place := Ascending.splitPoint (· ≤ v) f.values
  if place = 0 then none else f.values[place - 1]?

def holdsByHalves (f : Field k) (v : Nat) : Bool := (Ascending.search v f.values).isOk

theorem nextByHalves?_eq (f : Field k) (v : Nat) : f.nextByHalves? v = f.next? v := by
  obtain ⟨-, -, hdrop⟩ := Ascending.splitPoint_spec (p := (· < v)) f.values_ascending (by grind)
  rw [next?, hdrop, List.head?_drop]
  rfl

theorem prevByHalves?_eq (f : Field k) (v : Nat) : f.prevByHalves? v = f.prev? v := by
  obtain ⟨hle, htake, -⟩ :=
    Ascending.splitPoint_spec (p := (· ≤ v)) f.values_ascending (by grind)
  rw [prev?, htake, List.getLast?_take, prevByHalves?]
  split
  · rfl
  · have hlt : Ascending.splitPoint (· ≤ v) f.values - 1 < f.values.length := by omega
    simp [List.getElem?_eq_getElem hlt]

theorem holdsByHalves_iff {f : Field k} {v : Nat} : f.holdsByHalves v = true ↔ v ∈ f :=
  Ascending.search_isOk_iff f.values_ascending

variable {f : Field k} {v w : Nat}

theorem next?_eq_some_iff_isLeast : f.next? v = some w ↔ IsLeast {x | x ∈ f ∧ v ≤ x} w := by
  rw [next?_eq_some_iff]
  constructor
  · rintro ⟨hmem, hle, hleast⟩
    exact ⟨⟨hmem, hle⟩, fun x hx => hleast x hx.1 hx.2⟩
  · rintro ⟨⟨hmem, hle⟩, hleast⟩
    exact ⟨hmem, hle, fun x hx hv => hleast ⟨hx, hv⟩⟩

theorem prev?_eq_some_iff_isGreatest :
    f.prev? v = some w ↔ IsGreatest {x | x ∈ f ∧ x ≤ v} w := by
  rw [prev?_eq_some_iff]
  constructor
  · rintro ⟨hmem, hle, hgreatest⟩
    exact ⟨⟨hmem, hle⟩, fun x hx => hgreatest x hx.1 hx.2⟩
  · rintro ⟨⟨hmem, hle⟩, hgreatest⟩
    exact ⟨hmem, hle, fun x hx hv => hgreatest ⟨hx, hv⟩⟩

theorem mem_iff_next? : v ∈ f ↔ f.next? v = some v :=
  ⟨next?_of_mem, fun h => (next?_eq_some_iff.mp h).1⟩

theorem mem_iff_prev? : v ∈ f ↔ f.prev? v = some v :=
  ⟨prev?_of_mem, fun h => (prev?_eq_some_iff.mp h).1⟩

theorem le_iff_next? (hw : w ∈ f) : v ≤ w ↔ ∃ x, f.next? v = some x ∧ x ≤ w := by
  constructor
  · intro hle
    cases hnext : f.next? v with
    | some x => exact ⟨x, rfl, (next?_eq_some_iff.mp hnext).2.2 w hw hle⟩
    | none => exact absurd (next?_eq_none_iff.mp hnext w hw) (Nat.not_lt.mpr hle)
  · rintro ⟨x, hnext, hxw⟩
    exact Nat.le_trans (next?_eq_some_iff.mp hnext).2.1 hxw

theorem le_iff_prev? (hw : w ∈ f) : w ≤ v ↔ ∃ x, f.prev? v = some x ∧ w ≤ x := by
  constructor
  · intro hle
    cases hprev : f.prev? v with
    | some x => exact ⟨x, rfl, (prev?_eq_some_iff.mp hprev).2.2 w hw hle⟩
    | none => exact absurd (prev?_eq_none_iff.mp hprev w hw) (Nat.not_lt.mpr hle)
  · rintro ⟨x, hprev, hwx⟩
    exact Nat.le_trans hwx (prev?_eq_some_iff.mp hprev).2.1

theorem getElem?_zero (f : Field k) : f.values[0]? = some f.first := by
  obtain ⟨v, vs, h⟩ := List.exists_cons_of_ne_nil f.values_ne_nil
  simp [first, h]

theorem getElem?_last (f : Field k) : f.values[f.values.length - 1]? = some f.last := by
  rw [← List.getLast?_eq_getElem?]
  simp [last, List.getLastD_eq_getLast?, List.getLast?_eq_some_getLast f.values_ne_nil]

/-- Each query gives the nearest allowed value on its side and is found by halving, for every number
and not only for those in the range of the kind. -/
theorem queries_nearest (f : Field k) :
    (f.values[0]? = some f.first ∧ IsLeast {x | x ∈ f} f.first) ∧
    (f.values[f.values.length - 1]? = some f.last ∧ IsGreatest {x | x ∈ f} f.last) ∧
    ∀ v : Nat,
      (f.nextByHalves? v = f.next? v ∧
        (∀ w, f.next? v = some w ↔ IsLeast {x | x ∈ f ∧ v ≤ x} w) ∧
        (f.next? v = none ↔ ∀ x ∈ f, x < v)) ∧
      (f.prevByHalves? v = f.prev? v ∧
        (∀ w, f.prev? v = some w ↔ IsGreatest {x | x ∈ f ∧ x ≤ v} w) ∧
        (f.prev? v = none ↔ ∀ x ∈ f, v < x)) ∧
      ((f.holdsByHalves v = true ↔ v ∈ f) ∧ (v ∈ f ↔ f.next? v = some v) ∧
        (v ∈ f ↔ f.prev? v = some v)) ∧
      ∀ w ∈ f, (v ≤ w ↔ ∃ x, f.next? v = some x ∧ x ≤ w) ∧
        (w ≤ v ↔ ∃ x, f.prev? v = some x ∧ w ≤ x) := by
  refine ⟨⟨f.getElem?_zero, f.first_mem, fun x hx => first_le hx⟩,
    ⟨f.getElem?_last, f.last_mem, fun x hx => le_last hx⟩, fun v => ⟨?_, ?_, ?_, ?_⟩⟩
  · exact ⟨f.nextByHalves?_eq v, fun w => next?_eq_some_iff_isLeast, next?_eq_none_iff⟩
  · exact ⟨f.prevByHalves?_eq v, fun w => prev?_eq_some_iff_isGreatest, prev?_eq_none_iff⟩
  · exact ⟨holdsByHalves_iff, mem_iff_next?, mem_iff_prev?⟩
  · exact fun w hw => ⟨le_iff_next? hw, le_iff_prev? hw⟩

end Field

end CronCalendar
