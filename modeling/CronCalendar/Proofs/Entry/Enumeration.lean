import CronCalendar.Proofs.Entry.Schedule
import CronCalendar.Proofs.Search.Threshold
import CronCalendar.Query

/-!
# Cursors enumerate the schedule

A search that succeeds takes the first of the remaining triggers off the schedule, and one that fails
under a limit that no search needs has none left to take. A cursor repeats this from trigger to
trigger: whatever the limit, what it gives is the schedule from its reference on up to some place and
nothing ever after, and under a sufficient limit that place is the end.
-/

namespace CronCalendar

namespace Entry

variable {e : Entry} {d : Direction} {t found : Instant}

theorem remaining_of_found (h : e.seek d t = .ok found) :
    e.remaining d t = found :: e.remaining d found := by
  obtain ⟨haligned, hbeyond, hmatches, hnearest⟩ := nearest_of_seek h
  exact remaining_eq_cons haligned hbeyond hmatches hnearest

theorem remaining_of_error (hlimit : 200000 ≤ e.config.maxSteps.toNat) {err : SearchError}
    (h : e.seek d t = .error err) : e.remaining d t = [] := by
  apply remaining_eq_nil
  cases err with
  | unreachable expression steps =>
    obtain ⟨-, -, hnone⟩ := exhausted_of_seek h
    exact hnone (steps_le_of_seek hlimit h)
  | outOfRange reference =>
    intro u hu hbeyond hmatches
    rw [hu.eq_start] at hbeyond
    have hfires : e.Fires u.minute := hmatches
    obtain ⟨m, hbase⟩ := exists_base? (fires_iff.mp hfires).1 hbeyond
    rw [(reference_of_seek h).2] at hbase
    contradiction

end Entry

namespace Triggers

variable {e : Entry} {d : Direction} {t found : Instant}

theorem take_of_ended {c : Triggers} (h : c.cursor = none) (n : Nat) :
    (c.take n).1 = List.replicate n none := by
  induction n with
  | zero => rfl
  | succ n ih =>
    have hnext : c.next = (none, none, c) := by simp only [next, h]
    simp only [take, hnext, ih, List.replicate_succ]

theorem next_triggersFrom (e : Entry) (d : Direction) (t : Instant) :
    (e.triggersFrom d t).next =
      ((e.seek d t).toOption, some (e.search d t), ⟨e, d, (e.seek d t).toOption⟩) := rfl

theorem take_of_found (h : e.seek d t = .ok found) (n : Nat) :
    ((e.triggersFrom d t).take (n + 1)).1 = some found :: ((e.triggersFrom d found).take n).1 := by
  simp only [take, next_triggersFrom, h]
  rfl

theorem take_of_error {err : SearchError} (h : e.seek d t = .error err) (n : Nat) :
    ((e.triggersFrom d t).take n).1 = List.replicate n none := by
  cases n with
  | zero => rfl
  | succ n =>
    have hended : (e.seek d t).toOption = none := by
      rw [h]
      rfl
    simp only [take, next_triggersFrom, hended, take_of_ended, List.replicate_succ]

/-- Calls of the cursor give the list in order up to some place and nothing after it. The place is
the end of the list when the limit is one that no search needs. -/
def Enumerates (c : Triggers) (all : List Instant) : Prop :=
  ∃ k ≤ all.length, (200000 ≤ c.entry.config.maxSteps.toNat → k = all.length) ∧
    ∀ n, (c.take n).1 = (all.take (min k n)).map some ++ List.replicate (n - k) none

theorem enumerates_remaining (e : Entry) (d : Direction) (t : Instant) :
    (e.triggersFrom d t).Enumerates (e.remaining d t) := by
  induction hlist : e.remaining d t generalizing t with
  | nil =>
    cases hseek : e.seek d t with
    | ok found =>
      rw [Entry.remaining_of_found hseek] at hlist
      contradiction
    | error err =>
      exact ⟨0, Nat.le_refl 0, fun _ => rfl, fun n => by simp [take_of_error hseek]⟩
  | cons first rest ih =>
    cases hseek : e.seek d t with
    | ok found =>
      rw [Entry.remaining_of_found hseek] at hlist
      obtain ⟨rfl, hrest⟩ := List.cons.inj hlist
      obtain ⟨k, hk, hfull, htake⟩ := ih found hrest
      refine ⟨k + 1, Nat.succ_le_succ hk, fun hlimit => ?_, fun n => ?_⟩
      · rw [hfull hlimit, List.length_cons]
      · cases n with
        | zero => simp [take]
        | succ n =>
          rw [take_of_found hseek, htake, Nat.succ_min_succ, Nat.succ_sub_succ]
          rfl
    | error err =>
      refine ⟨0, Nat.zero_le _, fun hlimit => ?_, fun n => by simp [take_of_error hseek]⟩
      have hnil : e.remaining d t = [] := Entry.remaining_of_error hlimit hseek
      rw [hnil] at hlist
      contradiction

end Triggers

/-- From any reference, `upcoming` and `preceding` enumerate the triggers after it and before it
without skipping or repeating one. -/
theorem Entry.upcoming_preceding_enumerate (e : Entry) (t : Instant) :
    (∃ all : List Instant, all.Pairwise (· < ·) ∧
      (∀ u, u ∈ all ↔ u.Aligned ∧ t < u ∧ e.Matches u) ∧ (e.upcoming t).Enumerates all) ∧
    ∃ all : List Instant, all.Pairwise (fun a b => b < a) ∧
      (∀ u, u ∈ all ↔ u.Aligned ∧ u < t ∧ e.Matches u) ∧ (e.preceding t).Enumerates all := by
  constructor
  · exact ⟨e.remaining .forward t, e.remaining_ordered .forward t, fun u => mem_remaining,
      Triggers.enumerates_remaining e .forward t⟩
  · exact ⟨e.remaining .backward t, e.remaining_ordered .backward t, fun u => mem_remaining,
      Triggers.enumerates_remaining e .backward t⟩

end CronCalendar
