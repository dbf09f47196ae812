import CronCalendar.Proofs.Search.Nearest
import Mathlib.Data.List.Sort

/-!
# The schedule of an entry

All triggers of an entry stand in one finite list, from the earliest to the latest: the slots that
the fields name, year by year down to the minute, without the days that their month lacks and those
of another weekday. `remaining` is the part of the schedule beyond a reference, in the order in
which a search that sets out there meets it.
-/

namespace CronCalendar

namespace Search.Slot

def Precedes (a b : Slot) : Prop :=
  a.yearMonth.year < b.yearMonth.year ∨ a.yearMonth.year = b.yearMonth.year ∧
    (a.yearMonth.month < b.yearMonth.month ∨ a.yearMonth.month = b.yearMonth.month ∧
      (a.day < b.day ∨ a.day = b.day ∧
        (a.hour < b.hour ∨ a.hour = b.hour ∧ a.minute < b.minute)))

theorem key_lt_of_precedes {a b : Minute} (h : a.slot.Precedes b.slot) : a.key < b.key := by
  have ha := a.date.inYear
  have hb := b.date.inYear
  have ha' := a.date.day_le
  have hb' := b.date.day_le
  have hhour := a.hour_lt
  have hhour' := b.hour_lt
  have hminute := a.minute_lt
  have hminute' := b.minute_lt
  simp only [Precedes, Minute.slot, YearMonth.InYear, Date.yearMonth] at h ha hb
  simp only [Minute.key, Date.key, YearMonth.index, Date.yearMonth]
  omega

theorem minute?_eq_some_iff {s : Slot} {m : Minute} : s.minute? = some m ↔ m.slot = s := by
  constructor
  · intro h
    unfold minute? at h
    split at h
    · next date hdate =>
      obtain ⟨hyear, hmonth, hday⟩ := Date.ofParts?_eq_some_iff.mp hdate
      split at h
      · cases h
        simp only [Minute.slot, Date.yearMonth, hyear, hmonth, hday]
      · contradiction
    · contradiction
  · rintro rfl
    have hdate : Date.ofParts? m.date.year m.date.month m.date.day = some m.date :=
      Date.ofParts?_eq_some_iff.mpr ⟨rfl, rfl, rfl⟩
    have hclock : m.hour < 24 ∧ m.minute < 60 := ⟨m.hour_lt, m.minute_lt⟩
    simp only [minute?, Minute.slot, Date.yearMonth, hdate]
    exact dif_pos hclock

end Search.Slot

namespace Entry

open Search

/-- What all fields but the day of the week name, whether or not the month has the day. -/
def slots (e : Entry) : List Slot :=
  e.years.values.flatMap fun (year : Nat) => e.months.values.flatMap fun month =>
    e.days.values.flatMap fun day => e.hours.values.flatMap fun hour =>
      e.minutes.values.map fun minute => ⟨⟨year, month⟩, day, hour, minute⟩

def schedule (e : Entry) : List Instant :=
  ((e.slots.filterMap Slot.minute?).filter fun m => m.date.weekday ∈ e.weekdays).map Minute.start

variable {e : Entry} {d : Direction} {t u : Instant} {m : Minute}

theorem mem_slots : m.slot ∈ e.slots ↔ e.Admits m := by
  simp only [slots, List.mem_flatMap, List.mem_map, Minute.slot, Date.yearMonth, Slot.mk.injEq,
    YearMonth.mk.injEq]
  constructor
  · rintro ⟨year, hyear, month, hmonth, day, hday, hour, hhour, minute, hminute,
      ⟨heq, rfl⟩, rfl, rfl, rfl⟩
    refine ⟨hminute, hhour, hday, hmonth, by omega, ?_⟩
    rwa [← heq, Int.toNat_natCast]
  · intro h
    exact ⟨_, h.year_mem, _, h.month_mem, _, h.day_mem, _, h.hour_mem, _, h.minute_mem,
      ⟨Int.toNat_of_nonneg h.year_nonneg, rfl⟩, rfl, rfl, rfl⟩

theorem slots_ordered (e : Entry) : e.slots.Pairwise Slot.Precedes := by
  -- one level for each field: within a value by the finer fields, across values by this one
  refine List.pairwise_flatMap.mpr ⟨fun year _ => ?_, ?_⟩
  · refine List.pairwise_flatMap.mpr ⟨fun month _ => ?_, ?_⟩
    · refine List.pairwise_flatMap.mpr ⟨fun day _ => ?_, ?_⟩
      · refine List.pairwise_flatMap.mpr ⟨fun hour _ => ?_, ?_⟩
        · refine List.pairwise_map.mpr (e.minutes.values_ascending.imp fun hlt => ?_)
          simp [Slot.Precedes, hlt]
        · refine e.hours.values_ascending.imp fun hlt a ha b hb => ?_
          simp only [List.mem_map] at ha hb
          obtain ⟨_, _, rfl⟩ := ha
          obtain ⟨_, _, rfl⟩ := hb
          simp [Slot.Precedes, hlt]
      · refine e.days.values_ascending.imp fun hlt a ha b hb => ?_
        simp only [List.mem_flatMap, List.mem_map] at ha hb
        obtain ⟨_, _, _, _, rfl⟩ := ha
        obtain ⟨_, _, _, _, rfl⟩ := hb
        simp [Slot.Precedes, hlt]
    · refine e.months.values_ascending.imp fun hlt a ha b hb => ?_
      simp only [List.mem_flatMap, List.mem_map] at ha hb
      obtain ⟨_, _, _, _, _, _, rfl⟩ := ha
      obtain ⟨_, _, _, _, _, _, rfl⟩ := hb
      simp [Slot.Precedes, hlt]
  · refine e.years.values_ascending.imp fun hlt a ha b hb => ?_
    simp only [List.mem_flatMap, List.mem_map] at ha hb
    obtain ⟨_, _, _, _, _, _, _, _, rfl⟩ := ha
    obtain ⟨_, _, _, _, _, _, _, _, rfl⟩ := hb
    simp [Slot.Precedes, hlt]

theorem start_mem_schedule : m.start ∈ e.schedule ↔ e.Fires m := by
  have hinj : ∀ a : Minute, a.start = m.start → a = m := fun a h => congrArg Instant.minute h
  simp only [schedule, List.mem_map, List.mem_filter, List.mem_filterMap, decide_eq_true_eq,
    Slot.minute?_eq_some_iff, fires_iff, ← mem_slots]
  constructor
  · rintro ⟨a, ⟨⟨_, hmem, rfl⟩, hweekday⟩, heq⟩
    cases hinj a heq
    exact ⟨hmem, hweekday⟩
  · rintro ⟨hmem, hweekday⟩
    exact ⟨m, ⟨⟨_, hmem, rfl⟩, hweekday⟩, rfl⟩

theorem mem_schedule : u ∈ e.schedule ↔ u.Aligned ∧ e.Matches u := by
  constructor
  · intro h
    obtain ⟨m, -, rfl⟩ := List.mem_map.mp h
    exact ⟨Instant.aligned_start m, start_mem_schedule.mp h⟩
  · rintro ⟨haligned, hmatches⟩
    rw [haligned.eq_start]
    exact start_mem_schedule.mpr hmatches

theorem schedule_ascending (e : Entry) : e.schedule.Pairwise (· < ·) := by
  have hminutes : (e.slots.filterMap Slot.minute?).Pairwise fun a b => a.key < b.key := by
    refine e.slots_ordered.filterMap _ fun s s' hs m hm m' hm' => ?_
    rw [← Slot.minute?_eq_some_iff.mp hm, ← Slot.minute?_eq_some_iff.mp hm'] at hs
    exact Slot.key_lt_of_precedes hs
  refine List.pairwise_map.mpr ((hminutes.filter _).imp fun hlt => ?_)
  exact Instant.start_lt_start_iff.mpr hlt

end Entry

namespace Instant

theorem lt_irrefl (t : Instant) : ¬ t < t := by
  change ¬ Before t t
  simp [Before]

theorem lt_trans {a b c : Instant} (hab : a < b) (hbc : b < c) : a < c := by
  change Before a b at hab
  change Before b c at hbc
  change Before a c
  unfold Before at *
  omega

theorem Aligned.lt_trichotomy {t u : Instant} (ht : t.Aligned) (hu : u.Aligned) :
    t < u ∨ t = u ∨ u < t := by
  rw [ht.eq_start, hu.eq_start, start_lt_start_iff, start_lt_start_iff]
  rcases Int.lt_trichotomy t.minute.key u.minute.key with hlt | heq | hgt
  · exact .inl hlt
  · exact .inr (.inl (congrArg Minute.start (Minute.eq_of_key_eq heq)))
  · exact .inr (.inr hgt)

end Instant

namespace Direction

variable {d : Direction} {t u v : Instant}

theorem beyond_trans (htu : d.Beyond t u) (huv : d.Beyond u v) : d.Beyond t v := by
  cases d with
  | forward => exact Instant.lt_trans htu huv
  | backward => exact Instant.lt_trans huv htu

theorem beyond_irrefl (d : Direction) (t : Instant) : ¬ d.Beyond t t := by
  cases d with
  | forward => exact Instant.lt_irrefl t
  | backward => exact Instant.lt_irrefl t

theorem beyond_trichotomy (ht : t.Aligned) (hu : u.Aligned) :
    d.Beyond t u ∨ t = u ∨ d.Beyond u t := by
  cases d with
  | forward => exact ht.lt_trichotomy hu
  | backward =>
    rcases ht.lt_trichotomy hu with hlt | heq | hgt
    · exact .inr (.inr hlt)
    · exact .inr (.inl heq)
    · exact .inl hgt

instance : Std.Irrefl d.Beyond := ⟨d.beyond_irrefl⟩

instance : Std.Antisymm d.Beyond :=
  ⟨fun t _ htu hut => absurd (beyond_trans htu hut) (d.beyond_irrefl t)⟩

end Direction

namespace Entry

/-- The triggers beyond `t`, from the nearest on. -/
def remaining (e : Entry) (d : Direction) (t : Instant) : List Instant :=
  match d with
  | .forward => e.schedule.filter (t < ·)
  | .backward => (e.schedule.filter (· < t)).reverse

variable {e : Entry} {d : Direction} {t u found : Instant}

theorem mem_remaining : u ∈ e.remaining d t ↔ u.Aligned ∧ d.Beyond t u ∧ e.Matches u := by
  have hfilter : u ∈ e.remaining d t ↔ u ∈ e.schedule ∧ d.Beyond t u := by
    cases d <;> simp [remaining, Direction.Beyond]
  rw [hfilter, mem_schedule, and_right_comm, and_assoc]

theorem remaining_ordered (e : Entry) (d : Direction) (t : Instant) :
    (e.remaining d t).Pairwise d.Beyond := by
  cases d with
  | forward => exact e.schedule_ascending.filter _
  | backward => exact List.pairwise_reverse.mpr (e.schedule_ascending.filter _)

theorem remaining_eq_nil (h : ∀ u : Instant, u.Aligned → d.Beyond t u → ¬ e.Matches u) :
    e.remaining d t = [] := by
  refine List.eq_nil_iff_forall_not_mem.mpr fun u hu => ?_
  obtain ⟨haligned, hbeyond, hmatches⟩ := mem_remaining.mp hu
  exact h u haligned hbeyond hmatches

theorem remaining_eq_cons (haligned : found.Aligned) (hbeyond : d.Beyond t found)
    (hmatches : e.Matches found)
    (hnearest : ∀ u : Instant, u.Aligned → d.Beyond t u → d.Beyond u found → ¬ e.Matches u) :
    e.remaining d t = found :: e.remaining d found := by
  have hordered : (found :: e.remaining d found).Pairwise d.Beyond :=
    List.pairwise_cons.mpr ⟨fun u hu => (mem_remaining.mp hu).2.1, e.remaining_ordered d found⟩
  refine (e.remaining_ordered d t).eq_of_mem_iff hordered fun u => ?_
  rw [List.mem_cons, mem_remaining, mem_remaining]
  constructor
  · rintro ⟨hu, htu, hum⟩
    rcases Direction.beyond_trichotomy hu haligned with hlt | heq | hgt
    · exact absurd hum (hnearest u hu htu hlt)
    · exact .inl heq
    · exact .inr ⟨hu, hgt, hum⟩
  · rintro (rfl | ⟨hu, hfu, hum⟩)
    · exact ⟨haligned, hbeyond, hmatches⟩
    · exact ⟨hu, Direction.beyond_trans hbeyond hfu, hum⟩

end Entry

end CronCalendar
