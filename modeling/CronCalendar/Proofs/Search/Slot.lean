import CronCalendar.Proofs.Search.Course

/-!
# Slots on the line of minutes

A slot has a place on the line of minutes even where its day does not exist: its key orders it among
the minutes by year and month, then by day, then by hour and minute. A slot that fits its month, and
whose parts an entry allows, is a minute that the entry admits.
-/

namespace CronCalendar

def Minute.slot (m : Minute) : Search.Slot := ⟨m.date.yearMonth, m.date.day, m.hour, m.minute⟩

namespace Search.Slot

def dayKey (s : Slot) : Int := s.yearMonth.index * 32 + s.day

def key (s : Slot) : Int := s.dayKey * 1440 + (s.hour * 60 + s.minute)

theorem key_of_slot_eq {m : Minute} {s : Slot} (h : m.slot = s) : m.key = s.key := by
  rw [← h]
  rfl

/-- Bounds that keep the key in the order of its parts. Day 0 and day 32 stand for a step over the
edge of a month. -/
structure Bounded (s : Slot) : Prop where
  day_le : s.day ≤ 32
  hour_le : s.hour ≤ 23
  minute_le : s.minute ≤ 59

theorem key_le_iff {s : Slot} (hs : s.Bounded) (u : Minute) :
    s.key ≤ u.key ↔ s.yearMonth.index < u.date.yearMonth.index ∨
      s.yearMonth.index = u.date.yearMonth.index ∧ (s.day < u.date.day ∨
        s.day = u.date.day ∧ s.hour * 60 + s.minute ≤ u.hour * 60 + u.minute) := by
  have hday := hs.day_le
  have hhour := hs.hour_le
  have hminute := hs.minute_le
  have huday := u.date.day_bounds
  have huday' := u.date.day_le
  have huhour := u.hour_lt
  have huminute := u.minute_lt
  unfold key dayKey Minute.key Date.key
  omega

theorem le_key_iff {s : Slot} (hs : s.Bounded) (u : Minute) :
    u.key ≤ s.key ↔ u.date.yearMonth.index < s.yearMonth.index ∨
      u.date.yearMonth.index = s.yearMonth.index ∧ (u.date.day < s.day ∨
        u.date.day = s.day ∧ u.hour * 60 + u.minute ≤ s.hour * 60 + s.minute) := by
  have hday := hs.day_le
  have hhour := hs.hour_le
  have hminute := hs.minute_le
  have huday := u.date.day_bounds
  have huday' := u.date.day_le
  have huhour := u.hour_lt
  have huminute := u.minute_lt
  unfold key dayKey Minute.key Date.key
  omega

structure Timely (s : Slot) (e : Entry) : Prop where
  inYear : s.yearMonth.InYear
  day_mem : s.day ∈ e.days
  hour_mem : s.hour ∈ e.hours
  minute_mem : s.minute ∈ e.minutes

structure Allowed (s : Slot) (e : Entry) : Prop extends s.Timely e where
  month_mem : s.yearMonth.month ∈ e.months

variable {e : Entry} {s : Slot} {m : Minute}

theorem Timely.day_bounds (h : s.Timely e) : 1 ≤ s.day ∧ s.day ≤ 31 := Field.mem_bounds h.day_mem

theorem Timely.bounded (h : s.Timely e) : s.Bounded where
  day_le := Nat.le_succ_of_le h.day_bounds.2
  hour_le := (Field.mem_bounds h.hour_mem).2
  minute_le := (Field.mem_bounds h.minute_mem).2

theorem inYear_of_mem {year : Int} {month : Nat} (h : month ∈ e.months) :
    YearMonth.InYear ⟨year, month⟩ := Field.mem_bounds h

def InYears (s : Slot) (e : Entry) : Prop := ∃ year ∈ e.years, s.yearMonth.year = (year : Int)

theorem InYears.year_bounds (h : s.InYears e) :
    2000 ≤ s.yearMonth.year ∧ s.yearMonth.year ≤ 2100 := by
  obtain ⟨year, hmem, hyear⟩ := h
  have hbounds := Field.mem_bounds hmem
  simp only [Kind.least, Kind.greatest] at hbounds
  omega

theorem Timely.exists_minute? (h : s.Timely e) (hyear : s.InYears e) (hfits : s.Fits) :
    ∃ m, s.minute? = some m ∧ m.slot = s := by
  have hbounds := hyear.year_bounds
  have hhour := h.bounded.hour_le
  have hminute := h.bounded.minute_le
  have hvalid : Date.Valid s.yearMonth.year s.yearMonth.month s.day :=
    ⟨⟨by simp only [minYear]; omega, by simp only [maxYear]; omega⟩, h.inYear,
      h.day_bounds.1, hfits⟩
  have hclock : s.hour < 24 ∧ s.minute < 60 := by omega
  refine ⟨⟨⟨s.yearMonth.year, s.yearMonth.month, s.day, hvalid⟩, s.hour, s.minute, hclock.1,
    hclock.2⟩, ?_, rfl⟩
  simp only [minute?, Date.ofParts?, dif_pos hvalid, dif_pos hclock]

theorem Allowed.admits (h : s.Allowed e) (hyear : s.InYears e) (hm : m.slot = s) :
    e.Admits m := by
  obtain ⟨year, hmem, heq⟩ := hyear
  subst hm
  change m.date.year = year at heq
  refine ⟨h.minute_mem, h.hour_mem, h.day_mem, h.month_mem, by omega, ?_⟩
  rw [heq, Int.toNat_natCast]
  exact hmem

theorem arrive_lawful {σ : Type} {move : σ → Move σ} {c : Course σ} {p : σ} {retry : Minute → σ}
    (hs : s.minute? = some m) (hnearest : c.Nearest e p m)
    (hreject : m.date.weekday ∉ e.weekdays → c.Rejects e move p m (retry m)) :
    c.Lawful e move p (s.arrive e retry) := by
  unfold arrive
  rw [hs]
  dsimp only
  split
  · exact .found hnearest ‹_›
  · exact .reject (hreject ‹_›)

end Search.Slot

end CronCalendar
