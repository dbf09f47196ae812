import CronCalendar.Proofs.Entry.Enumeration

/-!
# Tours of the schedule

A tour starts at a trigger and moves to the next or the previous one in any order; a move that fails
stays where it is. Under a limit that no search needs, the tour is a walk on the places of the
schedule that is held at both ends, and a move fails exactly where it would leave them. The two
searches are thus inverse to each other on triggers.
-/

namespace CronCalendar

namespace Direction

def place? (n : Nat) : Direction → Nat → Option Nat
  | .forward, i => if i + 1 < n then some (i + 1) else none
  | .backward, i => if 0 < i then some (i - 1) else none

def clamp (n i : Nat) (d : Direction) : Nat := (d.place? n i).getD i

def opposite : Direction → Direction
  | .forward => .backward
  | .backward => .forward

theorem place?_lt {n i j : Nat} {d : Direction} (h : d.place? n i = some j) (hi : i < n) : j < n := by
  cases d <;> simp only [place?] at h <;> split at h <;> cases h <;> omega

theorem beyond_opposite {d : Direction} {t u : Instant} :
    d.opposite.Beyond t u ↔ d.Beyond u t := by
  cases d <;> rfl

end Direction

namespace Entry

def destination (e : Entry) (t : Instant) (moves : List Direction) : Instant :=
  moves.foldl (fun here d => (e.seek d here).toOption.getD here) t

/-- What a move from place `i` of the schedule should be answered: the trigger at the place that the
move leads to, or that there is none. -/
def Follows (e : Entry) (i : Nat) (d : Direction) (answer : Except SearchError Instant) : Prop :=
  match d.place? e.schedule.length i with
  | some j => ∃ u, e.schedule[j]? = some u ∧ answer = .ok u
  | none => ∃ steps, answer = .error (.unreachable e.display steps)

variable {e : Entry} {d : Direction} {t u : Instant} {i : Nat}

theorem tour_concat (e : Entry) (t : Instant) (moves : List Direction) (d : Direction) :
    (e.tour t (moves ++ [d])).1 = (e.tour t moves).1 ++ [e.seek d (e.destination t moves)] := by
  induction moves generalizing t with
  | nil => rfl
  | cons first moves ih =>
    change e.seek first t :: (e.tour _ (moves ++ [d])).1 = _
    rw [ih]
    rfl

theorem remaining_of_split {earlier later : List Instant}
    (h : e.schedule = earlier ++ t :: later) :
    e.remaining .forward t = later ∧ e.remaining .backward t = earlier.reverse := by
  have hascending := e.schedule_ascending
  rw [h] at hascending
  obtain ⟨-, hlater, hacross⟩ := List.pairwise_append.mp hascending
  have hbefore : ∀ a ∈ earlier, a < t := fun a ha => hacross a ha t List.mem_cons_self
  have hafter : ∀ b ∈ later, t < b := (List.pairwise_cons.mp hlater).1
  have hnot : ∀ {a b : Instant}, a < b → ¬ b < a :=
    fun hab hba => Instant.lt_irrefl _ (Instant.lt_trans hab hba)
  constructor
  · have hearlier : earlier.filter (t < ·) = [] := by
      simpa using fun a ha => hnot (hbefore a ha)
    have hlater : later.filter (t < ·) = later := by
      simpa using hafter
    simp [remaining, h, hearlier, hlater, Instant.lt_irrefl]
  · have hearlier : earlier.filter (· < t) = earlier := by
      simpa using hbefore
    have hlater : later.filter (· < t) = [] := by
      simpa using fun b hb => hnot (hafter b hb)
    simp [remaining, h, hearlier, hlater, Instant.lt_irrefl]

theorem remaining_head? (h : e.schedule[i]? = some t) (d : Direction) :
    (e.remaining d t).head? = (d.place? e.schedule.length i).bind fun j => e.schedule[j]? := by
  obtain ⟨hi, rfl⟩ := List.getElem?_eq_some_iff.mp h
  have hsplit : e.schedule = e.schedule.take i ++ e.schedule[i] :: e.schedule.drop (i + 1) := by
    rw [List.getElem_cons_drop, List.take_append_drop]
  obtain ⟨hforward, hbackward⟩ := remaining_of_split hsplit
  cases d with
  | forward =>
    rw [hforward, List.head?_drop]
    simp only [Direction.place?]
    split
    · rfl
    · next hend => exact List.getElem?_eq_none (Nat.not_lt.mp hend)
  | backward =>
    rw [hbackward, List.head?_reverse, List.getLast?_take]
    simp only [Direction.place?]
    split
    · next hzero => simp [hzero]
    · next hpos =>
      have hlt : i - 1 < e.schedule.length := by omega
      simp [Nat.pos_of_ne_zero hpos, List.getElem?_eq_getElem hlt]

theorem seek_head? (hlimit : 200000 ≤ e.config.maxSteps.toNat) (d : Direction) (t : Instant) :
    (e.seek d t).toOption = (e.remaining d t).head? := by
  cases hseek : e.seek d t with
  | ok found =>
    rw [remaining_of_found hseek]
    rfl
  | error err =>
    rw [remaining_of_error hlimit hseek]
    rfl

theorem unreachable_of_seek (h : e.Admits t.minute) {err : SearchError}
    (hseek : e.seek d t = .error err) : ∃ steps, err = .unreachable e.display steps := by
  cases err with
  | unreachable expression steps => exact ⟨steps, by rw [(exhausted_of_seek hseek).1]⟩
  | outOfRange reference =>
    obtain ⟨m, hbase⟩ := exists_base?_of_admits h d
    rw [(reference_of_seek hseek).2] at hbase
    contradiction

theorem seek_follows (hlimit : 200000 ≤ e.config.maxSteps.toNat) (h : e.schedule[i]? = some t)
    (d : Direction) : e.Follows i d (e.seek d t) := by
  have hmem := mem_schedule.mp (List.mem_of_getElem? h)
  have hhead := e.remaining_head? h d
  rw [← seek_head? hlimit] at hhead
  unfold Follows
  cases hplace : d.place? e.schedule.length i with
  | some j =>
    have hj := Direction.place?_lt hplace (List.getElem?_eq_some_iff.mp h).1
    refine ⟨e.schedule[j], List.getElem?_eq_getElem hj, ?_⟩
    rw [hplace, Option.bind_some, List.getElem?_eq_getElem hj] at hhead
    cases hseek : e.seek d t with
    | ok found =>
      rw [hseek] at hhead
      exact congrArg Except.ok (Option.some.inj hhead)
    | error err =>
      rw [hseek] at hhead
      contradiction
  | none =>
    rw [hplace] at hhead
    cases hseek : e.seek d t with
    | ok found =>
      rw [hseek] at hhead
      contradiction
    | error err =>
      obtain ⟨steps, rfl⟩ := unreachable_of_seek (fires_iff.mp hmem.2).1 hseek
      exact ⟨steps, rfl⟩

theorem schedule_destination (hlimit : 200000 ≤ e.config.maxSteps.toNat)
    (h : e.schedule[i]? = some t) (moves : List Direction) :
    e.schedule[moves.foldl (Direction.clamp e.schedule.length) i]? =
      some (e.destination t moves) := by
  induction moves generalizing t i with
  | nil => exact h
  | cons d moves ih =>
    have hmove := seek_follows hlimit h d
    have hnext : e.schedule[Direction.clamp e.schedule.length i d]? =
        some ((e.seek d t).toOption.getD t) := by
      unfold Follows at hmove
      unfold Direction.clamp
      split at hmove
      · next j hplace =>
        obtain ⟨u, hu, hseek⟩ := hmove
        rw [hplace, hseek]
        exact hu
      · next hplace =>
        obtain ⟨steps, hseek⟩ := hmove
        rw [hplace, hseek]
        exact h
    exact ih hnext

theorem seek_opposite (hlimit : 200000 ≤ e.config.maxSteps.toNat) (ht : t.Aligned)
    (hmatches : e.Matches t) (h : e.seek d t = .ok u) : e.seek d.opposite u = .ok t := by
  obtain ⟨-, htu, -, hnearest⟩ := nearest_of_seek h
  have hut : d.opposite.Beyond u t := Direction.beyond_opposite.mpr htu
  cases hback : e.seek d.opposite u with
  | error err =>
    have hmem : t ∈ e.remaining d.opposite u := mem_remaining.mpr ⟨ht, hut, hmatches⟩
    rw [remaining_of_error hlimit hback] at hmem
    contradiction
  | ok v =>
    obtain ⟨hv, huv, hvm, hnearest'⟩ := nearest_of_seek hback
    have hvu : d.Beyond v u := Direction.beyond_opposite.mp huv
    -- neither trigger fits strictly between the other one and `u`
    rcases Direction.beyond_trichotomy (d := d) ht hv with htv | rfl | hvt
    · exact absurd hvm (hnearest v hv htv hvu)
    · rfl
    · exact absurd hmatches (hnearest' t ht hut (Direction.beyond_opposite.mpr hvt))

/-- From any trigger and for any moves, a tour is the clamped walk on the places of the schedule,
each move fails exactly where it would leave them, and stepping back undoes stepping on. -/
theorem tour_follows_schedule (hlimit : 200000 ≤ e.config.maxSteps.toNat) (ht : t.Aligned)
    (hmatches : e.Matches t) :
    (e.schedule.Pairwise (· < ·) ∧ ∀ u, u ∈ e.schedule ↔ u.Aligned ∧ e.Matches u) ∧
    (∃ i, e.schedule[i]? = some t ∧ ∀ moves : List Direction,
      let j := moves.foldl (Direction.clamp e.schedule.length) i
      e.schedule[j]? = some (e.destination t moves) ∧ ∀ d : Direction,
        e.Follows j d (e.seek d (e.destination t moves)) ∧
        (e.tour t (moves ++ [d])).1 = (e.tour t moves).1 ++ [e.seek d (e.destination t moves)]) ∧
    ∀ u : Instant, u.Aligned → e.Matches u →
      (e.nextAfter t = .ok u ↔ e.prevBefore u = .ok t) := by
  refine ⟨⟨e.schedule_ascending, fun u => mem_schedule⟩, ?_, fun u hu hum => ⟨?_, ?_⟩⟩
  · obtain ⟨i, hi⟩ := List.mem_iff_getElem?.mp (mem_schedule.mpr ⟨ht, hmatches⟩)
    refine ⟨i, hi, fun moves => ⟨schedule_destination hlimit hi moves, fun d => ?_⟩⟩
    exact ⟨seek_follows hlimit (schedule_destination hlimit hi moves) d, e.tour_concat t moves d⟩
  · exact seek_opposite hlimit ht hmatches
  · exact seek_opposite hlimit hu hum

def leapMondays : Entry where
  minutes := ⟨"59", [59], rfl⟩
  hours := ⟨"23", [23], rfl⟩
  days := ⟨"29", [29], rfl⟩
  months := ⟨"2", [2], rfl⟩
  weekdays := ⟨"1", [1], rfl⟩
  years := ⟨"2012-2100/4", [2012, 2016, 2020, 2024, 2028, 2032, 2036, 2040, 2044, 2048, 2052, 2056,
    2060, 2064, 2068, 2072, 2076, 2080, 2084, 2088, 2092, 2096, 2100], by rfl⟩
  config := { maxSteps := 200000 }

def leapDay2016 : Instant := (Date.lastMinute ⟨2016, 2, 29, by decide⟩).start

def leapDay2044 : Instant := (Date.lastMinute ⟨2044, 2, 29, by decide⟩).start

def leapDay2072 : Instant := (Date.lastMinute ⟨2072, 2, 29, by decide⟩).start

theorem leapMondays_schedule : leapMondays.schedule = [leapDay2016, leapDay2044, leapDay2072] := by
  decide +kernel

theorem leapMondays_place (h : leapMondays.schedule[i]? = some leapDay2044) : i = 1 := by
  rw [leapMondays_schedule] at h
  have hlt : i < 3 := (List.getElem?_eq_some_iff.mp h).1
  have hcases : i = 0 ∨ i = 1 ∨ i = 2 := by omega
  rcases hcases with rfl | rfl | rfl
  · exact absurd h (by decide)
  · rfl
  · exact absurd h (by decide)

theorem leapMondays_tour :
    200000 ≤ leapMondays.config.maxSteps.toNat ∧ leapDay2044.Aligned ∧
      leapMondays.Matches leapDay2044 ∧
      leapMondays.destination leapDay2044 [.backward, .backward, .forward, .forward, .forward] =
        leapDay2072 ∧
      ∃ steps, leapMondays.nextAfter leapDay2072 =
        .error (.unreachable leapMondays.display steps) := by
  have hlimit : 200000 ≤ leapMondays.config.maxSteps.toNat := by decide
  have haligned : leapDay2044.Aligned := Instant.aligned_start _
  have hmatches : leapMondays.Matches leapDay2044 := by decide +kernel
  obtain ⟨-, ⟨i, hi, htour⟩, -⟩ := tour_follows_schedule hlimit haligned hmatches
  obtain rfl := leapMondays_place hi
  obtain ⟨hend, hmove⟩ := htour [.backward, .backward, .forward, .forward, .forward]
  obtain ⟨hfollows, -⟩ := hmove .forward
  rw [leapMondays_schedule] at hend hfollows
  have hdestination : leapMondays.destination leapDay2044
      [.backward, .backward, .forward, .forward, .forward] = leapDay2072 :=
    (Option.some.inj hend).symm
  rw [hdestination] at hfollows
  unfold Follows at hfollows
  rw [leapMondays_schedule] at hfollows
  exact ⟨hlimit, haligned, hmatches, hdestination, hfollows⟩

end Entry

end CronCalendar
