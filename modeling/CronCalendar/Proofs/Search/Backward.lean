import CronCalendar.Search.Backward
import CronCalendar.Proofs.Calendar.Neighbours
import CronCalendar.Proofs.Search.Slot

/-!
# The course of the backward search

Ahead of a position lie the minutes that the search has yet to reach on its way back: up to a checked
slot, before a month that is left, and before the day of a rejected candidate. A month without an
allowed day is checked as well, and stands for all minutes up to its end. Every helper takes a slot
or a month to a position that has the same admitted minutes ahead, so borrows skip none, and each
move of the search is lawful on this course.

What is left of a search is counted in months and days from year 2000 on. A month is sought at most
once before a checked one, because two short months are never neighbours.
-/

namespace CronCalendar.Search.Backward

variable {e : Entry}

/-- The months from the start of year 2000 on, of which January has the index 24001, without those
after year 2100. -/
def monthsLeft (index : Int) : Nat := (min index 25212 - 24000).toNat

def daysLeft (key : Int) : Nat := (min key (25212 * 32 + 31) - 24001 * 32).toNat

/-- The end of a month. It stands for the month also where the month has no allowed day. -/
def monthEnd (ym : YearMonth) : Slot := ⟨ym, 31, 23, 59⟩

def place (ym : YearMonth) (slot? : Option Slot) : Slot := slot?.getD (monthEnd ym)

def Sound (e : Entry) : Position → Prop
  | .seek ym => ym.InYear ∧ ym.length < 31
  | .check ym (some s) => s.yearMonth = ym ∧ s.Allowed e ∧ s.Fits
  | .check ym none => ym.month ∈ e.months ∧ closing? e ym = none
  | .retry rejected => e.Admits rejected

def Ahead : Position → Minute → Prop
  | .seek ym, u => u.date.yearMonth.index < ym.index
  | .check ym slot?, u => u.key ≤ (place ym slot?).key
  | .retry rejected, u => u.date.key < rejected.date.key

def slack : Position → Nat
  | .seek ym => monthsLeft (ym.index - 1) + 1
  | .check ym _ => monthsLeft ym.index
  | .retry rejected => monthsLeft rejected.date.yearMonth.index + 1

def days : Position → Nat
  | .seek ym => daysLeft ((ym.index - 1) * 32 + 31)
  | .check ym slot? => daysLeft (place ym slot?).dayKey
  | .retry rejected => daysLeft (rejected.date.key - 1)

def course (e : Entry) : Course Position where
  direction := .backward
  Sound := Sound e
  Ahead := Ahead
  slack := slack
  days := days

theorem slack_le (p : Position) : slack p ≤ 1213 := by
  cases p <;> simp only [slack, monthsLeft] <;> omega

theorem days_le (p : Position) : days p ≤ 38784 := by
  cases p <;> simp only [days, daysLeft] <;> omega

/-- `t` lies no later than `s`, and no admitted minute lies between them. -/
structure Retreats (e : Entry) (s t : Slot) : Prop where
  ahead : ∀ u, e.Admits u → (u.key ≤ t.key ↔ u.key ≤ s.key)
  index_le : t.yearMonth.index ≤ s.yearMonth.index
  dayKey_le : t.dayKey ≤ s.dayKey

theorem Retreats.refl (s : Slot) : Retreats e s s :=
  ⟨fun _ _ => Iff.rfl, Int.le_refl _, Int.le_refl _⟩

theorem Retreats.of_parts {s t : Slot} (ht : t.day ≤ 31)
    (hle : t.yearMonth.index < s.yearMonth.index ∨
      t.yearMonth.index = s.yearMonth.index ∧ t.day ≤ s.day)
    (hahead : ∀ u, e.Admits u → (u.key ≤ t.key ↔ u.key ≤ s.key)) : Retreats e s t := by
  refine ⟨hahead, by omega, ?_⟩
  unfold Slot.dayKey
  omega

theorem monthEnd_bounded (ym : YearMonth) : (monthEnd ym).Bounded :=
  ⟨by simp [monthEnd], by simp [monthEnd], by simp [monthEnd]⟩

theorem le_monthEnd_iff {ym : YearMonth} (u : Minute) :
    u.key ≤ (monthEnd ym).key ↔ u.date.yearMonth.index ≤ ym.index := by
  have hday := u.date.day_le
  have hhour := u.hour_lt
  have hminute := u.minute_lt
  rw [Slot.le_key_iff (monthEnd_bounded ym)]
  simp only [monthEnd]
  omega

theorem closing?_eq_some {ym : YearMonth} {s : Slot} (hym : ym.InYear)
    (h : closing? e ym = some s) :
    s.yearMonth = ym ∧ s.Timely e ∧ s.Fits ∧ Retreats e (monthEnd ym) s := by
  obtain ⟨day, hday, rfl⟩ := Option.map_eq_some_iff.mp h
  obtain ⟨hmem, hle, hgreatest⟩ := Field.prev?_eq_some_iff.mp hday
  have htimely : Slot.Timely ⟨ym, day, e.hours.last, e.minutes.last⟩ e :=
    ⟨hym, hmem, e.hours.last_mem, e.minutes.last_mem⟩
  have hday31 := htimely.day_bounds.2
  refine ⟨rfl, htimely, hle, .of_parts hday31 (.inr ⟨rfl, hday31⟩) fun u hu => ?_⟩
  have huhour := Field.le_last hu.hour_mem
  have huminute := Field.le_last hu.minute_mem
  have huday : u.date.yearMonth.index = ym.index → u.date.day ≤ day := by
    intro heq
    refine hgreatest _ hu.day_mem ?_
    rw [← YearMonth.eq_of_index_eq u.date.inYear hym heq]
    exact u.date.day_bounds.2
  rw [le_monthEnd_iff, Slot.le_key_iff htimely.bounded]
  dsimp only
  omega

theorem closing?_eq_none {ym : YearMonth} (hym : ym.InYear) (h : closing? e ym = none) :
    ym.length < 31 ∧ ∀ u, e.Admits u → u.date.yearMonth.index ≠ ym.index := by
  have hnone := Field.prev?_eq_none_iff.mp (Option.map_eq_none_iff.mp h)
  constructor
  · have hlast := hnone _ e.days.last_mem
    have hbound := (Field.mem_bounds e.days.last_mem).2
    exact Nat.lt_of_lt_of_le hlast hbound
  · intro u hu heq
    have huday := u.date.day_bounds.2
    rw [YearMonth.eq_of_index_eq u.date.inYear hym heq] at huday
    exact absurd (hnone _ hu.day_mem) (Nat.not_lt.mpr huday)

theorem clock?_eq_some {hour minute hour' minute' : Nat} (hlt : minute < 60)
    (h : clock? e hour minute = some (hour', minute')) :
    hour' ∈ e.hours ∧ minute' ∈ e.minutes ∧ ∀ x ∈ e.hours, ∀ y ∈ e.minutes,
      (x * 60 + y ≤ hour' * 60 + minute' ↔ x * 60 + y ≤ hour * 60 + minute) := by
  have hlastbound := (Field.mem_bounds e.minutes.last_mem).2
  simp only [Kind.greatest] at hlastbound
  unfold clock? at h
  cases hminute : e.minutes.prev? minute with
  | some prev =>
    simp only [hminute] at h
    obtain ⟨found, hhour, hpair⟩ := Option.map_eq_some_iff.mp h
    obtain ⟨hmem, hle, hgreatest⟩ := Field.prev?_eq_some_iff.mp hhour
    obtain ⟨hmem', hle', hgreatest'⟩ := Field.prev?_eq_some_iff.mp hminute
    cases hpair
    refine ⟨hmem, ?_, ?_⟩
    · split
      · exact e.minutes.last_mem
      · exact hmem'
    · intro x hx y hy
      have hx' := hgreatest x hx
      have hy' := hgreatest' y hy
      have hylast := Field.le_last hy
      split <;> omega
  | none =>
    simp only [hminute] at h
    split at h
    · contradiction
    · obtain ⟨found, hhour, hpair⟩ := Option.map_eq_some_iff.mp h
      obtain ⟨hmem, hle, hgreatest⟩ := Field.prev?_eq_some_iff.mp hhour
      have hnone := Field.prev?_eq_none_iff.mp hminute
      cases hpair
      refine ⟨hmem, e.minutes.last_mem, ?_⟩
      intro x hx y hy
      have hx' := hgreatest x hx
      have hy' := hnone y hy
      have hylast := Field.le_last hy
      omega

theorem clock?_eq_none {hour minute : Nat} (hlt : minute < 60) (h : clock? e hour minute = none) :
    ∀ x ∈ e.hours, ∀ y ∈ e.minutes, hour * 60 + minute < x * 60 + y := by
  intro x hx y hy
  unfold clock? at h
  cases hminute : e.minutes.prev? minute with
  | some prev =>
    simp only [hminute, Option.map_eq_none_iff] at h
    have := Field.prev?_eq_none_iff.mp h x hx
    omega
  | none =>
    have hy' := Field.prev?_eq_none_iff.mp hminute y hy
    simp only [hminute] at h
    split at h
    · omega
    · have := Field.prev?_eq_none_iff.mp (Option.map_eq_none_iff.mp h) x hx
      omega

structure Seeks (e : Entry) (s : Slot) (p : Position) : Prop where
  sound : Sound e p
  ahead : ∀ u, e.Admits u → (Ahead p u ↔ u.key ≤ s.key)
  slack_le : ∀ index, s.yearMonth.index ≤ index → 24001 ≤ index → index ≤ 25212 →
    slack p ≤ monthsLeft index
  days_le : days p ≤ daysLeft s.dayKey

theorem Seeks.of_retreats {s t : Slot} {p : Position} (h : Seeks e t p) (hst : Retreats e s t) :
    Seeks e s p where
  sound := h.sound
  ahead u hu := (h.ahead u hu).trans (hst.ahead u hu)
  slack_le index hle := h.slack_le index (Int.le_trans hst.index_le hle)
  days_le := by
    have hdays := h.days_le
    have hkey := hst.dayKey_le
    unfold daysLeft at *
    omega

theorem seeks_check {s : Slot} (h : s.Allowed e) (hfits : s.Fits) :
    Seeks e s (.check s.yearMonth (some s)) where
  sound := ⟨rfl, h, hfits⟩
  ahead u _ := Iff.rfl
  slack_le index hle _ _ := by
    simp only [slack, monthsLeft]
    omega
  days_le := Nat.le_refl _

theorem visit_seeks {ym : YearMonth} (h : ym.month ∈ e.months) :
    Seeks e (monthEnd ym) (visit e ym) := by
  have hinYear : ym.InYear := Slot.inYear_of_mem h
  unfold visit
  cases hclosing : closing? e ym with
  | some s =>
    obtain ⟨rfl, htimely, hfits, hretreats⟩ := closing?_eq_some hinYear hclosing
    exact (seeks_check ⟨htimely, h⟩ hfits).of_retreats hretreats
  | none =>
    refine ⟨⟨h, hclosing⟩, fun u _ => Iff.rfl, ?_, Nat.le_refl _⟩
    intro index hle _ _
    simp only [slack, monthsLeft, monthEnd] at *
    omega

theorem seeks_seek {ym : YearMonth} (h : ym.InYear) (hclosing : closing? e ym = none) :
    Seeks e (monthEnd ym) (.seek ym) := by
  obtain ⟨hshort, hempty⟩ := closing?_eq_none h hclosing
  refine ⟨⟨h, hshort⟩, fun u hu => ?_, ?_, ?_⟩
  · have huempty := hempty u hu
    rw [le_monthEnd_iff]
    simp only [Ahead]
    omega
  · intro index hle _ _
    simp only [slack, monthsLeft, monthEnd] at *
    omega
  · simp only [days, daysLeft, Slot.dayKey, monthEnd]
    omega

theorem align_seeks {s : Slot} (h : s.Timely e) (hfits : s.Fits) : Seeks e s (align e s) := by
  have hinYear := h.inYear
  have hday := h.day_bounds
  unfold YearMonth.InYear at hinYear
  unfold align
  cases hmonth : e.months.prev? s.yearMonth.month with
  | some month =>
    obtain ⟨hmem, hle, hgreatest⟩ := Field.prev?_eq_some_iff.mp hmonth
    have hbound := (Field.mem_bounds hmem).1
    simp only [Kind.least] at hbound
    dsimp only
    split
    · refine (visit_seeks hmem).of_retreats (.of_parts (by simp [monthEnd]) (.inl ?_) fun u hu => ?_)
      · simp only [monthEnd, YearMonth.index]
        omega
      · have hu' := u.date.inYear
        have hugreatest := hgreatest _ hu.month_mem
        rw [le_monthEnd_iff, Slot.le_key_iff h.bounded]
        simp only [YearMonth.index, YearMonth.InYear, Date.yearMonth] at hu' ⊢
        omega
    · obtain rfl : month = s.yearMonth.month := by omega
      exact seeks_check ⟨h, hmem⟩ hfits
  | none =>
    have hnone := Field.prev?_eq_none_iff.mp hmonth
    have hlast := (Field.mem_bounds e.months.last_mem).2
    simp only [Kind.greatest] at hlast
    refine (visit_seeks e.months.last_mem).of_retreats
      (.of_parts (by simp [monthEnd]) (.inl ?_) fun u hu => ?_)
    · simp only [monthEnd, YearMonth.index]
      omega
    · have hu' := u.date.inYear
      have hunone := hnone _ hu.month_mem
      have hulast := Field.le_last hu.month_mem
      rw [le_monthEnd_iff, Slot.le_key_iff h.bounded]
      simp only [YearMonth.index, YearMonth.InYear, Date.yearMonth] at hu' ⊢
      omega

theorem slack_align_le {s : Slot} (h : s.yearMonth.InYear) :
    slack (align e s) ≤ monthsLeft s.yearMonth.index := by
  unfold YearMonth.InYear at h
  unfold align
  cases hmonth : e.months.prev? s.yearMonth.month with
  | some month =>
    dsimp only
    split <;> simp only [slack, visit, monthsLeft, YearMonth.index] <;> omega
  | none =>
    have hlast := (Field.mem_bounds e.months.last_mem).2
    simp only [Kind.greatest] at hlast
    simp only [slack, visit, monthsLeft, YearMonth.index]
    omega

theorem enter_seeks {ym : YearMonth} (h : ym.InYear) : Seeks e (monthEnd ym) (enter e ym) := by
  unfold enter
  cases hclosing : closing? e ym with
  | some s =>
    obtain ⟨rfl, htimely, hfits, hretreats⟩ := closing?_eq_some h hclosing
    exact (align_seeks htimely hfits).of_retreats hretreats
  | none => exact seeks_seek h hclosing

theorem seekDay_seeks {ym : YearMonth} {day hour minute : Nat} (hym : ym.InYear)
    (hday : day ≤ ym.length) (hhour : hour ∈ e.hours) (hminute : minute ∈ e.minutes) :
    Seeks e ⟨ym, day, hour, minute⟩ (seekDay e ym day hour minute) := by
  have hlength := ym.length_bounds.2
  have hbounded : Slot.Bounded ⟨ym, day, hour, minute⟩ :=
    ⟨by simp only; omega, (Field.mem_bounds hhour).2, (Field.mem_bounds hminute).2⟩
  unfold seekDay
  cases hprev : e.days.prev? day with
  | some d =>
    obtain ⟨hmem, hle, hgreatest⟩ := Field.prev?_eq_some_iff.mp hprev
    have hfits : d ≤ ym.length := Nat.le_trans hle hday
    dsimp only
    split
    · have htimely : Slot.Timely ⟨ym, d, e.hours.last, e.minutes.last⟩ e :=
        ⟨hym, hmem, e.hours.last_mem, e.minutes.last_mem⟩
      refine (align_seeks htimely hfits).of_retreats
        (.of_parts htimely.day_bounds.2 (.inr ⟨rfl, hle⟩) fun u hu => ?_)
      have huday := hgreatest _ hu.day_mem
      have huhour := Field.le_last hu.hour_mem
      have huminute := Field.le_last hu.minute_mem
      rw [Slot.le_key_iff hbounded, Slot.le_key_iff htimely.bounded]
      dsimp only
      omega
    · obtain rfl : d = day := by omega
      exact align_seeks ⟨hym, hmem, hhour, hminute⟩ hfits
  | none =>
    have hnone := Field.prev?_eq_none_iff.mp hprev
    have hindex := YearMonth.index_preceding hym
    refine (enter_seeks (YearMonth.preceding_inYear hym)).of_retreats
      (.of_parts (by simp [monthEnd]) (.inl ?_) fun u hu => ?_)
    · simp only [monthEnd]
      omega
    · have huday := hnone _ hu.day_mem
      rw [le_monthEnd_iff, Slot.le_key_iff hbounded]
      dsimp only
      omega

theorem start_seeks (m : Minute) : Seeks e m.slot (start e m) := by
  have hday := m.date.day_bounds
  have hday31 := m.date.day_le
  have hbounded : m.slot.Bounded :=
    ⟨Nat.le_succ_of_le hday31, Nat.le_of_lt_succ m.hour_lt, Nat.le_of_lt_succ m.minute_lt⟩
  unfold start
  cases hclock : clock? e m.hour m.minute with
  | some clock =>
    obtain ⟨hour, minute⟩ := clock
    obtain ⟨hhour, hminute, hgreatest⟩ := clock?_eq_some m.minute_lt hclock
    have hseeks := seekDay_seeks m.date.inYear hday.2 hhour hminute
    refine hseeks.of_retreats ⟨fun u hu => ?_, Int.le_refl _, Int.le_refl _⟩
    have hu := hgreatest _ hu.hour_mem _ hu.minute_mem
    rw [Slot.le_key_iff hbounded, Slot.le_key_iff
      ⟨Nat.le_succ_of_le hday31, (Field.mem_bounds hhour).2, (Field.mem_bounds hminute).2⟩]
    simp only [Minute.slot]
    omega
  | none =>
    have hnone := clock?_eq_none m.minute_lt hclock
    have hbefore : m.date.day - 1 ≤ m.date.yearMonth.length := by omega
    have hseeks := seekDay_seeks m.date.inYear hbefore e.hours.last_mem e.minutes.last_mem
    refine hseeks.of_retreats
      (.of_parts (by simp only; omega) (.inr ⟨rfl, Nat.sub_le _ _⟩) fun u hu => ?_)
    have huclock := hnone _ hu.hour_mem _ hu.minute_mem
    have huhour := Field.le_last hu.hour_mem
    have huminute := Field.le_last hu.minute_mem
    rw [Slot.le_key_iff hbounded, Slot.le_key_iff ⟨by simp only; omega,
      (Field.mem_bounds e.hours.last_mem).2, (Field.mem_bounds e.minutes.last_mem).2⟩]
    simp only [Minute.slot]
    omega

theorem monthBefore_spec {ym : YearMonth} (h : ym.InYear) :
    (monthBefore e ym).month ∈ e.months ∧ (monthBefore e ym).index < ym.index ∧
      ∀ u, e.Admits u → (u.date.yearMonth.index ≤ (monthBefore e ym).index ↔
        u.date.yearMonth.index < ym.index) := by
  unfold YearMonth.InYear at h
  unfold monthBefore
  cases hmonth : e.months.prev? (ym.month - 1) with
  | some month =>
    obtain ⟨hmem, hle, hgreatest⟩ := Field.prev?_eq_some_iff.mp hmonth
    have hbound := (Field.mem_bounds hmem).1
    simp only [Kind.least] at hbound
    refine ⟨hmem, by simp only [YearMonth.index]; omega, fun u hu => ?_⟩
    have hu' := u.date.inYear
    have hugreatest := hgreatest _ hu.month_mem
    simp only [YearMonth.index, YearMonth.InYear, Date.yearMonth] at hu' ⊢
    omega
  | none =>
    have hnone := Field.prev?_eq_none_iff.mp hmonth
    have hbound := Field.mem_bounds e.months.last_mem
    simp only [Kind.least, Kind.greatest] at hbound
    refine ⟨e.months.last_mem, by simp only [YearMonth.index]; omega, fun u hu => ?_⟩
    have hu' := u.date.inYear
    have hunone := hnone _ hu.month_mem
    have hulast := Field.le_last hu.month_mem
    simp only [YearMonth.index, YearMonth.InYear, Date.yearMonth] at hu' ⊢
    omega

theorem retry_goes {rejected : Minute} (h : e.Admits rejected) :
    ∃ q, move e (.retry rejected) = .go q ∧ (course e).Goes e (.retry rejected) q := by
  have hyear := h.year_bounds
  obtain ⟨date, hdate⟩ := Date.exists_pred? (d := rejected.date) (by simp only [minYear]; omega)
  have hseeks := start_seeks (e := e) date.lastMinute
  have hprev := Date.le_key_of_pred? hdate
  have hself := (hprev date).mp (Int.le_refl _)
  have hinYear := rejected.date.inYear
  have hday := rejected.date.day_le
  have hday' := date.day_bounds.1
  have hindex : date.yearMonth.index ≤ rejected.date.yearMonth.index := by
    unfold Date.key at hself
    omega
  refine ⟨start e date.lastMinute, by simp [move, hdate], hseeks.sound, fun u hu => ?_, ?_, ?_⟩
  · have hudate := hprev u.date
    have huhour := u.hour_lt
    have huminute := u.minute_lt
    refine (hseeks.ahead u hu).trans ?_
    rw [← Slot.key_of_slot_eq rfl]
    simp only [course, Ahead, Minute.key, Date.lastMinute]
    omega
  · have hslack := hseeks.slack_le rejected.date.yearMonth.index hindex
    simp only [YearMonth.index, YearMonth.InYear, Date.yearMonth, course, slack] at *
    omega
  · have hdays := hseeks.days_le
    simp only [Slot.dayKey, Minute.slot, Date.lastMinute, daysLeft, days, course, Date.key] at *
    omega

theorem reject_lawful {ym : YearMonth} {slot? : Option Slot} {t : Slot} {m : Minute}
    (hym : (place ym slot?).yearMonth = ym) (hst : Retreats e (place ym slot?) t)
    (hm : m.slot = t) (hadmits : e.Admits m) :
    (course e).Nearest e (.check ym slot?) m ∧ (m.date.weekday ∉ e.weekdays →
      (course e).Rejects e (move e) (.check ym slot?) m (.retry m)) := by
  have hkey := Slot.key_of_slot_eq hm
  have hyear := hadmits.year_bounds
  have hinYear := m.date.inYear
  have hnearest : (course e).Nearest e (.check ym slot?) m := by
    refine ⟨hadmits, (hst.ahead m hadmits).mp (Int.le_of_eq hkey), fun u hu hahead => ?_⟩
    change u.key ≤ m.key
    rw [hkey]
    exact (hst.ahead u hu).mpr hahead
  have hindex : m.date.yearMonth.index ≤ ym.index := by
    have := hst.index_le
    rwa [← hm, hym] at this
  have hday : m.date.key ≤ (place ym slot?).dayKey := by
    have := hst.dayKey_le
    rwa [← hm] at this
  refine ⟨hnearest, fun hweekday => ⟨hnearest, hweekday, hadmits, fun u hu => ?_, ?_, ?_, ?_⟩⟩
  · have hahead := hst.ahead u hu
    rw [← hkey] at hahead
    exact Minute.date_key_lt_iff.trans (and_congr hahead Iff.rfl)
  · simp only [course, slack, monthsLeft]
    omega
  · simp only [course, days, daysLeft]
    have hmday := m.date.day_bounds.1
    have hmday' := m.date.day_le
    unfold Date.key at hday ⊢
    simp only [YearMonth.index, YearMonth.InYear, Date.yearMonth] at *
    omega
  · obtain ⟨q, hmove, -⟩ := retry_goes hadmits
    exact ⟨q, hmove⟩

theorem place_yearMonth {ym : YearMonth} {slot? : Option Slot}
    (h : Sound e (.check ym slot?)) : (place ym slot?).yearMonth = ym := by
  cases slot? with
  | some s => exact h.1
  | none => rfl

theorem inYear_of_sound {ym : YearMonth} {slot? : Option Slot}
    (h : Sound e (.check ym slot?)) : ym.InYear := by
  cases slot? with
  | some s =>
    obtain ⟨rfl, hallowed, -⟩ := h
    exact hallowed.inYear
  | none => exact Slot.inYear_of_mem h.1

theorem place_bounded {ym : YearMonth} {slot? : Option Slot}
    (h : Sound e (.check ym slot?)) : (place ym slot?).Bounded := by
  cases slot? with
  | some s => exact h.2.1.bounded
  | none => exact monthEnd_bounded ym

theorem place_day_le {ym : YearMonth} {slot? : Option Slot}
    (h : Sound e (.check ym slot?)) : (place ym slot?).day ≤ 31 := by
  cases slot? with
  | some s => exact h.2.1.day_bounds.2
  | none => exact Nat.le_refl _

theorem settle_lawful {ym ym' : YearMonth} {slot? slot'? : Option Slot}
    (h : Sound e (.check ym slot?)) (h' : Sound e (.check ym' slot'?))
    (hst : Retreats e (place ym slot?) (place ym' slot'?))
    (hyear : ∃ year ∈ e.years, ym'.year = (year : Int)) :
    (course e).Lawful e (move e) (.check ym slot?) (settle e ym' slot'?) := by
  have hym := place_yearMonth h
  have hindex := hst.index_le
  rw [hym, place_yearMonth h'] at hindex
  cases slot'? with
  | some s =>
    obtain ⟨rfl, hallowed, hfits⟩ := h'
    obtain ⟨m, hminute, hm⟩ := hallowed.exists_minute? hyear hfits
    obtain ⟨hnearest, hreject⟩ := reject_lawful hym hst hm (hallowed.admits hyear hm)
    exact Slot.arrive_lawful hminute hnearest hreject
  | none =>
    obtain ⟨hmem, hclosing⟩ := h'
    have hinYear : ym'.InYear := Slot.inYear_of_mem hmem
    obtain ⟨hbefore, hlt, hiff⟩ := monthBefore_spec (e := e) hinYear
    have hempty := (closing?_eq_none hinYear hclosing).2
    have hseeks := visit_seeks hbefore
    have hbounds := Slot.InYears.year_bounds (s := monthEnd ym') hyear
    refine .go ⟨hseeks.sound, fun u hu => ?_, ?_, ?_⟩
    · have hahead := hst.ahead u hu
      have huempty := hempty u hu
      have huiff := hiff u hu
      refine (hseeks.ahead u hu).trans (Iff.trans ?_ hahead)
      change _ ↔ u.key ≤ (monthEnd ym').key
      rw [le_monthEnd_iff, le_monthEnd_iff]
      omega
    · simp only [course, slack, visit, monthsLeft, monthEnd, YearMonth.index,
        YearMonth.InYear] at *
      omega
    · have hdays := hseeks.days_le
      have hkey := hst.dayKey_le
      change (monthEnd ym').dayKey ≤ _ at hkey
      simp only [course, days, daysLeft, Slot.dayKey, monthEnd] at *
      omega

theorem year?_eq_some {year : Int} {found : Nat} (h : year? e year = some found) :
    found ∈ e.years ∧ found ≤ year ∧ ∀ x ∈ e.years, (x : Int) ≤ year → x ≤ found := by
  unfold year? at h
  split at h
  · contradiction
  · obtain ⟨hmem, hle, hgreatest⟩ := Field.prev?_eq_some_iff.mp h
    refine ⟨hmem, by omega, fun x hx hxle => hgreatest x hx (by omega)⟩

theorem year?_eq_none {year : Int} (h : year? e year = none) :
    ∀ x ∈ e.years, year < (x : Int) := by
  intro x hx
  unfold year? at h
  split at h
  · omega
  · have := Field.prev?_eq_none_iff.mp h x hx
    omega

theorem move_check (ym : YearMonth) (slot? : Option Slot) :
    move e (.check ym slot?) =
      match year? e ym.year with
      | none => .exhausted ym.year
      | some year =>
        if year < ym.year then settle e ⟨year, e.months.last⟩ (closing? e ⟨year, e.months.last⟩)
        else settle e ym slot? := rfl

theorem check_lawful {ym : YearMonth} {slot? : Option Slot} (h : Sound e (.check ym slot?)) :
    (course e).Lawful e (move e) (.check ym slot?) (move e (.check ym slot?)) := by
  have hinYear := inYear_of_sound h
  have hym := place_yearMonth h
  have hbounded := place_bounded h
  rw [move_check]
  cases hfound : year? e ym.year with
  | none =>
    have hnone := year?_eq_none hfound
    refine .exhausted (fun u hu hahead => ?_) hnone
    have huyear := hnone _ hu.year_mem
    have hunonneg := hu.year_nonneg
    have hu' := u.date.inYear
    simp only [course, Ahead, Slot.le_key_iff hbounded, hym] at hahead
    simp only [YearMonth.index, YearMonth.InYear, Date.yearMonth] at *
    omega
  | some year =>
    obtain ⟨hmem, hle, hgreatest⟩ := year?_eq_some hfound
    dsimp only
    split
    · next hlt =>
      have hseeks : Seeks e (monthEnd ⟨year, e.months.last⟩) (visit e ⟨year, e.months.last⟩) :=
        visit_seeks e.months.last_mem
      have hlast := Field.mem_bounds e.months.last_mem
      simp only [Kind.least, Kind.greatest] at hlast
      refine settle_lawful h hseeks.sound
        (.of_parts (place_day_le hseeks.sound) (.inl ?_) fun u hu => ?_) ⟨year, hmem, rfl⟩
      · rw [hym, place_yearMonth hseeks.sound]
        simp only [YearMonth.index, YearMonth.InYear] at *
        omega
      · have huyear := hgreatest _ hu.year_mem
        have hunonneg := hu.year_nonneg
        have humonth := Field.le_last hu.month_mem
        have hu' := u.date.inYear
        refine (hseeks.ahead u hu).trans ?_
        rw [le_monthEnd_iff, Slot.le_key_iff hbounded, hym]
        simp only [YearMonth.index, YearMonth.InYear, Date.yearMonth] at *
        omega
    · exact settle_lawful h h (.refl _) ⟨year, hmem, by omega⟩

theorem seek_goes {ym : YearMonth} (h : ym.InYear) (hshort : ym.length < 31) :
    (course e).Goes e (.seek ym) (enter e ym.preceding) := by
  have hpreceding := YearMonth.preceding_inYear h
  have hindex := YearMonth.index_preceding h
  have hlength := (YearMonth.length_beside_short h hshort).2
  have hseeks := enter_seeks (e := e) hpreceding
  refine ⟨hseeks.sound, fun u hu => ?_, ?_, ?_⟩
  · refine (hseeks.ahead u hu).trans (le_monthEnd_iff u |>.trans ?_)
    simp only [course, Ahead]
    omega
  · unfold enter
    cases hclosing : closing? e ym.preceding with
    | some s =>
      obtain ⟨hym, htimely, -, -⟩ := closing?_eq_some hpreceding hclosing
      have hslack := slack_align_le (e := e) htimely.inYear
      rw [hym, hindex] at hslack
      exact Nat.lt_succ_of_le hslack
    | none =>
      have hlt := (closing?_eq_none hpreceding hclosing).1
      omega
  · have hdays := hseeks.days_le
    simp only [course, days, daysLeft, Slot.dayKey, monthEnd] at *
    omega

theorem governs (e : Entry) : (course e).Governs e (move e) := by
  intro p hp
  cases p with
  | seek ym => exact .go (seek_goes hp.1 hp.2)
  | check ym slot? => exact check_lawful hp
  | retry rejected =>
    obtain ⟨q, hmove, hgoes⟩ := retry_goes hp
    rw [hmove]
    exact .go hgoes

end CronCalendar.Search.Backward
