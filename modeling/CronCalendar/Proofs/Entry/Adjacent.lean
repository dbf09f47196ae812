import CronCalendar.Proofs.Entry.Schedule

/-!
# Triggers next to a reference

From a minute that the entry admits, neither search moves: every field takes the minute's own value,
nothing is carried, and the month and the year are allowed as they are. The first step then finds the
minute if its weekday is allowed. So whether a minute is a trigger can be asked in three ways that
agree under every limit but zero: of the entry itself, of the search for the next trigger from the
minute before, and of the search for the previous one from within the minute or from its end.
-/

namespace CronCalendar

namespace Search

variable {e : Entry} {m : Minute}

theorem arrive_of_fires {σ : Type} (h : e.Fires m) (retry : Minute → σ) :
    m.slot.arrive e retry = .found m := by
  have hminute : m.slot.minute? = some m := Slot.minute?_eq_some_iff.mpr rfl
  unfold Slot.arrive
  rw [hminute]
  exact if_pos (Entry.fires_iff.mp h).2

theorem Forward.start_of_admits (h : e.Admits m) : Forward.start e m = .check m.slot := by
  have hfits : Slot.Fits ⟨m.date.yearMonth, m.date.day, m.hour, m.minute⟩ := m.date.day_bounds.2
  have hmonth : e.months.next? m.date.yearMonth.month = some m.date.yearMonth.month :=
    Field.next?_of_mem h.month_mem
  simp only [start, clock?, Field.next?_of_mem h.minute_mem, Field.next?_of_mem h.hour_mem,
    Option.map_some, Nat.lt_irrefl, if_false, seekDay, Field.next?_of_mem h.day_mem, enter,
    if_pos hfits, align, hmonth, Minute.slot]

theorem Forward.move_of_fires (h : e.Fires m) : Forward.move e (.check m.slot) = .found m := by
  have hadmits := (Entry.fires_iff.mp h).1
  have hnonneg := hadmits.year_nonneg
  have hyear : e.years.next? m.slot.yearMonth.year.toNat = some m.date.year.toNat :=
    Field.next?_of_mem hadmits.year_mem
  have hsame : ¬ m.slot.yearMonth.year < (m.date.year.toNat : Int) := by
    simp only [Minute.slot, Date.yearMonth]
    omega
  have hfits : m.slot.Fits := m.date.day_bounds.2
  rw [move_check, hyear]
  simp only [if_neg hsame, settle, if_pos hfits]
  exact arrive_of_fires h _

theorem Backward.start_of_admits (h : e.Admits m) :
    Backward.start e m = .check m.date.yearMonth (some m.slot) := by
  have hmonth : e.months.prev? m.date.yearMonth.month = some m.date.yearMonth.month :=
    Field.prev?_of_mem h.month_mem
  simp only [start, clock?, Field.prev?_of_mem h.minute_mem, Field.prev?_of_mem h.hour_mem,
    Option.map_some, Nat.lt_irrefl, if_false, seekDay, Field.prev?_of_mem h.day_mem, align, hmonth,
    Minute.slot]

theorem Backward.move_of_fires (h : e.Fires m) :
    Backward.move e (.check m.date.yearMonth (some m.slot)) = .found m := by
  have hadmits := (Entry.fires_iff.mp h).1
  have hnonneg := hadmits.year_nonneg
  have hyear : year? e m.date.yearMonth.year = some m.date.year.toNat := by
    rw [year?, Date.yearMonth, if_neg (Int.not_lt.mpr hnonneg)]
    exact Field.prev?_of_mem hadmits.year_mem
  have hsame : ¬ (m.date.year.toNat : Int) < m.date.yearMonth.year := by
    simp only [Date.yearMonth]
    omega
  rw [move_check, hyear]
  simp only [if_neg hsame, settle]
  exact arrive_of_fires h _

end Search

namespace Entry

open Search

variable {e : Entry} {d : Direction} {t : Instant} {m : Minute} {limit : Nat}

theorem walk_of_fires (h : e.Fires m) (d : Direction) (hlimit : 1 ≤ limit) :
    e.walk d limit m = ⟨.found m, []⟩ := by
  obtain ⟨left, rfl⟩ := Nat.exists_eq_add_one.mpr hlimit
  have hadmits := (fires_iff.mp h).1
  cases d with
  | forward => simp only [walk, Forward.start_of_admits hadmits, Search.walk, Forward.move_of_fires h]
  | backward =>
    simp only [walk, Backward.start_of_admits hadmits, Search.walk, Backward.move_of_fires h]

theorem base?_of_first (hm : e.Admits m) (hbeyond : d.Beyond t m.start)
    (hfirst : ∀ u : Minute, d.Beyond t u.start → d.Leads m u) : base? d t = some m := by
  obtain ⟨base, hbase⟩ := exists_base? hm hbeyond
  have hleads := leads_base_iff hbase
  have hle : d.Leads base m := (hleads m).mpr hbeyond
  have hself : d.Leads base base := by cases d <;> exact Int.le_refl _
  have hge : d.Leads m base := hfirst base ((hleads base).mp hself)
  have hkey : base.key = m.key := by
    cases d with
    | forward => exact Int.le_antisymm hle hge
    | backward => exact Int.le_antisymm hge hle
  rw [hbase, Minute.eq_of_key_eq hkey]

theorem seek_of_first (hlimit : 1 ≤ e.config.maxSteps.toNat) (hfires : e.Fires m)
    (hbeyond : d.Beyond t m.start) (hfirst : ∀ u : Minute, d.Beyond t u.start → d.Leads m u) :
    e.seek d t = .ok m.start := by
  have hbase := base?_of_first (fires_iff.mp hfires).1 hbeyond hfirst
  unfold seek search
  rw [hbase]
  simp only [walk_of_fires hfires d hlimit, Outcome.answer]

theorem leads_of_pred? {before : Minute} (h : m.pred? = some before) (ht : ¬ t < before.start)
    {u : Minute} (hu : t < u.start) : m.key ≤ u.key := by
  have hpred := Minute.le_key_of_pred? h u
  rw [Instant.lt_start_iff] at ht hu
  omega

theorem leads_of_succ? {after : Minute} (h : m.succ? = some after) (ht : ¬ after.start < t)
    {u : Minute} (hu : u.start < t) : u.key ≤ m.key := by
  have hsucc := Minute.key_le_of_succ? h u
  rw [Instant.start_lt_iff] at ht hu
  obtain ⟨hle, hinside⟩ := not_or.mp ht
  rcases hu with hlt | ⟨rfl, haligned⟩
  · omega
  · -- inside its own minute the reference cannot be at the end of the window
    have hne : after.key ≠ t.minute.key := by
      intro hkey
      exact hinside ⟨Minute.eq_of_key_eq hkey, haligned⟩
    omega

/-- A minute is a trigger just when the search from any reference in the minute before finds it, and
just when the search back from any reference past its start and up to the next minute does; one
reference on either side is enough to tell. -/
theorem adjacent_agree (hlimit : 1 ≤ e.config.maxSteps.toNat) {before after : Minute}
    (ht : t.Aligned) (hbefore : t.minute.pred? = some before)
    (hafter : t.minute.succ? = some after) :
    (e.Matches t ↔ ∀ a : Instant, ¬ a < before.start → a < t → e.nextAfter a = .ok t) ∧
    (e.Matches t ↔ ∀ b : Instant, t < b → ¬ after.start < b → e.prevBefore b = .ok t) ∧
    (∀ a : Instant, ¬ a < before.start → a < t → (e.Matches t ↔ e.nextAfter a = .ok t)) ∧
    ∀ b : Instant, t < b → ¬ after.start < b → (e.Matches t ↔ e.prevBefore b = .ok t) := by
  have hnext : ∀ a : Instant, ¬ a < before.start → a < t →
      (e.Matches t ↔ e.nextAfter a = .ok t) := by
    intro a hfrom hto
    refine ⟨fun hmatches => ?_, fun hseek => (nearest_of_seek hseek).2.2.1⟩
    rw [ht.eq_start] at hto ⊢
    exact seek_of_first hlimit hmatches hto fun u hu => leads_of_pred? hbefore hfrom hu
  have hprev : ∀ b : Instant, t < b → ¬ after.start < b →
      (e.Matches t ↔ e.prevBefore b = .ok t) := by
    intro b hfrom hto
    refine ⟨fun hmatches => ?_, fun hseek => (nearest_of_seek hseek).2.2.1⟩
    rw [ht.eq_start] at hfrom ⊢
    exact seek_of_first hlimit hmatches hfrom fun u hu => leads_of_succ? hafter hto hu
  have hbeforeWindow : ¬ before.start < before.start ∧ before.start < t := by
    have hpred := Minute.le_key_of_pred? hbefore before
    rw [ht.eq_start, Instant.start_lt_start_iff, Instant.start_lt_start_iff]
    omega
  have hafterWindow : t < after.start ∧ ¬ after.start < after.start := by
    have hsucc := Minute.key_le_of_succ? hafter after
    rw [ht.eq_start, Instant.start_lt_start_iff, Instant.start_lt_start_iff]
    omega
  refine ⟨⟨fun hmatches a hfrom hto => (hnext a hfrom hto).mp hmatches, fun hall => ?_⟩,
    ⟨fun hmatches b hfrom hto => (hprev b hfrom hto).mp hmatches, fun hall => ?_⟩, hnext, hprev⟩
  · exact (hnext _ hbeforeWindow.1 hbeforeWindow.2).mpr
      (hall _ hbeforeWindow.1 hbeforeWindow.2)
  · exact (hprev _ hafterWindow.1 hafterWindow.2).mpr (hall _ hafterWindow.1 hafterWindow.2)

def yearEnd : Entry where
  minutes := ⟨"59/1", [59], rfl⟩
  hours := ⟨"23/1", [23], rfl⟩
  days := ⟨"31", [31], rfl⟩
  months := ⟨"12", [12], rfl⟩
  weekdays := ⟨"2", [2], rfl⟩
  years := ⟨"2024-2024", [2024], rfl⟩
  config := { maxSteps := 1 }

def newYearsEve : Date := ⟨2024, 12, 31, by decide⟩

theorem yearEnd_adjacent :
    let before : Minute := ⟨newYearsEve, 23, 58, by decide, by decide⟩
    let t := newYearsEve.lastMinute.start
    let after := Date.midnight ⟨2025, 1, 1, by decide⟩
    let a : Instant := ⟨before, 59, 1999999999, by decide⟩
    let b : Instant := ⟨t.minute, 59, 1250000000, by decide⟩
    1 ≤ yearEnd.config.maxSteps.toNat ∧ t.Aligned ∧ t.minute.pred? = some before ∧
      t.minute.succ? = some after ∧ yearEnd.Matches t ∧ yearEnd.nextAfter a = .ok t ∧
      yearEnd.prevBefore b = .ok t := by
  intro before t after a b
  have hlimit : 1 ≤ yearEnd.config.maxSteps.toNat := by decide
  have haligned : t.Aligned := ⟨rfl, rfl⟩
  have hbefore : t.minute.pred? = some before := by decide +kernel
  have hafter : t.minute.succ? = some after := by decide +kernel
  have hmatches : yearEnd.Matches t := by decide +kernel
  obtain ⟨hnext, hprev, -, -⟩ := adjacent_agree hlimit haligned hbefore hafter
  exact ⟨hlimit, haligned, hbefore, hafter, hmatches,
    hnext.mp hmatches a (by decide +kernel) (by decide +kernel),
    hprev.mp hmatches b (by decide +kernel) (by decide +kernel)⟩

end Entry

end CronCalendar
