import CronCalendar.Search.Forward
import CronCalendar.Proofs.Calendar.Neighbours
import CronCalendar.Proofs.Search.Slot

/-!
# The course of the forward search

Ahead of a checked slot lie the minutes from it on, ahead of a month that is rolled over those of
later months, and ahead of a rejected candidate those of later days. Every helper of the search
takes a slot to a position that has the same admitted minutes ahead as the slot itself, so carries
and resets skip none, and each move of the search is lawful on this course.

Years before 2000 and after 2100 hold no trigger, so what is left of a search is counted in months
and days between them. A roll is owed at most once before a slot fits, because two short months are
never neighbours.
-/

namespace CronCalendar.Search.Forward

variable {e : Entry}

/-- The months up to the end of year 2100, of which December has the index 25212, without those
before year 2000. -/
def monthsLeft (index : Int) : Nat := (25213 - max index 24001).toNat

def daysLeft (key : Int) : Nat := (25213 * 32 - max key (24001 * 32)).toNat

def Sound (e : Entry) : Position → Prop
  | .roll ym => ym.InYear ∧ ym.length < 31
  | .check s => s.Allowed e
  | .retry rejected => e.Admits rejected

def Ahead : Position → Minute → Prop
  | .roll ym, u => ym.index < u.date.yearMonth.index
  | .check s, u => s.key ≤ u.key
  | .retry rejected, u => rejected.date.key < u.date.key

def slack : Position → Nat
  | .roll ym => monthsLeft (ym.index + 1) + 1
  | .check s => monthsLeft s.yearMonth.index
  | .retry rejected => monthsLeft rejected.date.yearMonth.index + 1

def days : Position → Nat
  | .roll ym => daysLeft ((ym.index + 1) * 32)
  | .check s => daysLeft s.dayKey
  | .retry rejected => daysLeft (rejected.date.key + 1)

def course (e : Entry) : Course Position where
  direction := .forward
  Sound := Sound e
  Ahead := Ahead
  slack := slack
  days := days

theorem slack_le (p : Position) : slack p ≤ 1213 := by
  cases p <;> simp only [slack, monthsLeft] <;> omega

theorem days_le (p : Position) : days p ≤ 38784 := by
  cases p <;> simp only [days, daysLeft] <;> omega

/-- `t` lies no earlier than `s`, and no admitted minute lies between them. -/
structure Advances (e : Entry) (s t : Slot) : Prop where
  ahead : ∀ u, e.Admits u → (t.key ≤ u.key ↔ s.key ≤ u.key)
  index_le : s.yearMonth.index ≤ t.yearMonth.index
  dayKey_le : s.dayKey ≤ t.dayKey

theorem Advances.refl (s : Slot) : Advances e s s :=
  ⟨fun _ _ => Iff.rfl, Int.le_refl _, Int.le_refl _⟩

theorem Advances.of_parts {s t : Slot} (hs : s.Bounded) (ht : t.Timely e)
    (hle : s.yearMonth.index < t.yearMonth.index ∨
      s.yearMonth.index = t.yearMonth.index ∧ s.day ≤ t.day)
    (hahead : ∀ u, e.Admits u → (t.key ≤ u.key ↔ s.key ≤ u.key)) : Advances e s t := by
  have hday := hs.day_le
  have hday' := ht.day_bounds
  refine ⟨hahead, by omega, ?_⟩
  unfold Slot.dayKey
  omega

theorem opening_timely {ym : YearMonth} (h : ym.InYear) : (opening e ym).Timely e :=
  ⟨h, e.days.first_mem, e.hours.first_mem, e.minutes.first_mem⟩

theorem opening_allowed {year : Int} {month : Nat} (h : month ∈ e.months) :
    (opening e ⟨year, month⟩).Allowed e :=
  ⟨opening_timely (Slot.inYear_of_mem h), h⟩

theorem opening_key_le_iff {ym : YearMonth} (h : ym.InYear) {u : Minute} (hu : e.Admits u) :
    (opening e ym).key ≤ u.key ↔ ym.index ≤ u.date.yearMonth.index := by
  rw [Slot.key_le_iff (opening_timely h).bounded]
  have hday := Field.first_le hu.day_mem
  have hhour := Field.first_le hu.hour_mem
  have hminute := Field.first_le hu.minute_mem
  simp only [opening]
  omega

theorem clock?_eq_some {hour minute hour' minute' : Nat} (hlt : minute < 60)
    (h : clock? e hour minute = some (hour', minute')) :
    hour' ∈ e.hours ∧ minute' ∈ e.minutes ∧ ∀ x ∈ e.hours, ∀ y ∈ e.minutes,
      (hour' * 60 + minute' ≤ x * 60 + y ↔ hour * 60 + minute ≤ x * 60 + y) := by
  unfold clock? at h
  cases hminute : e.minutes.next? minute with
  | some next =>
    simp only [hminute] at h
    obtain ⟨found, hhour, hpair⟩ := Option.map_eq_some_iff.mp h
    obtain ⟨hmem, hle, hleast⟩ := Field.next?_eq_some_iff.mp hhour
    obtain ⟨hmem', hle', hleast'⟩ := Field.next?_eq_some_iff.mp hminute
    have hbound := (Field.mem_bounds hmem').2
    have hfirst := (Field.mem_bounds e.minutes.first_mem).2
    simp only [Kind.greatest] at hbound hfirst
    cases hpair
    refine ⟨hmem, ?_, ?_⟩
    · split
      · exact e.minutes.first_mem
      · exact hmem'
    · intro x hx y hy
      have hx' := hleast x hx
      have hy' := hleast' y hy
      have hyfirst := Field.first_le hy
      have hybound := (Field.mem_bounds hy).2
      simp only [Kind.greatest] at hybound
      split <;> omega
  | none =>
    simp only [hminute] at h
    obtain ⟨found, hhour, hpair⟩ := Option.map_eq_some_iff.mp h
    obtain ⟨hmem, hle, hleast⟩ := Field.next?_eq_some_iff.mp hhour
    have hnone := Field.next?_eq_none_iff.mp hminute
    cases hpair
    refine ⟨hmem, e.minutes.first_mem, ?_⟩
    intro x hx y hy
    have hx' := hleast x hx
    have hy' := hnone y hy
    have hyfirst := Field.first_le hy
    omega

theorem clock?_eq_none {hour minute : Nat} (hlt : minute < 60) (h : clock? e hour minute = none) :
    ∀ x ∈ e.hours, ∀ y ∈ e.minutes, x * 60 + y < hour * 60 + minute := by
  intro x hx y hy
  have hybound := (Field.mem_bounds hy).2
  simp only [Kind.greatest] at hybound
  unfold clock? at h
  cases hminute : e.minutes.next? minute with
  | some next =>
    simp only [hminute, Option.map_eq_none_iff] at h
    have := Field.next?_eq_none_iff.mp h x hx
    omega
  | none =>
    simp only [hminute, Option.map_eq_none_iff] at h
    have := Field.next?_eq_none_iff.mp h x hx
    have := Field.next?_eq_none_iff.mp hminute y hy
    omega

theorem align_allowed {s : Slot} (h : s.Timely e) : (align e s).Allowed e := by
  unfold align
  cases hmonth : e.months.next? s.yearMonth.month with
  | some month =>
    obtain ⟨hmem, hle, -⟩ := Field.next?_eq_some_iff.mp hmonth
    dsimp only
    split
    · exact opening_allowed hmem
    · obtain rfl : month = s.yearMonth.month := by omega
      exact ⟨h, hmem⟩
  | none => exact opening_allowed e.months.first_mem

theorem align_advances {s : Slot} (h : s.Timely e) : Advances e s (align e s) := by
  have hinYear := h.inYear
  unfold YearMonth.InYear at hinYear
  unfold align
  cases hmonth : e.months.next? s.yearMonth.month with
  | some month =>
    obtain ⟨hmem, -, hleast⟩ := Field.next?_eq_some_iff.mp hmonth
    have hbound := (Field.mem_bounds hmem).2
    simp only [Kind.greatest] at hbound
    dsimp only
    split
    · refine .of_parts h.bounded (opening_allowed hmem).toTimely (.inl ?_) fun u hu => ?_
      · simp only [opening, YearMonth.index]
        omega
      · have hu' := u.date.inYear
        have huleast := hleast _ hu.month_mem
        rw [opening_key_le_iff (Slot.inYear_of_mem hmem) hu, Slot.key_le_iff h.bounded]
        simp only [YearMonth.index, YearMonth.InYear, Date.yearMonth] at hu' ⊢
        omega
    · exact .refl s
  | none =>
    have hnone := Field.next?_eq_none_iff.mp hmonth
    have hfirst := (Field.mem_bounds e.months.first_mem).1
    simp only [Kind.least] at hfirst
    refine .of_parts h.bounded (opening_allowed e.months.first_mem).toTimely (.inl ?_)
      fun u hu => ?_
    · simp only [opening, YearMonth.index]
      omega
    · have hu' := u.date.inYear
      have hunone := hnone _ hu.month_mem
      have hufirst := Field.first_le hu.month_mem
      rw [opening_key_le_iff (Slot.inYear_of_mem e.months.first_mem) hu,
        Slot.key_le_iff h.bounded]
      simp only [YearMonth.index, YearMonth.InYear, Date.yearMonth] at hu' ⊢
      omega

structure Seeks (e : Entry) (s : Slot) (p : Position) : Prop where
  sound : Sound e p
  ahead : ∀ u, e.Admits u → (Ahead p u ↔ s.key ≤ u.key)
  slack_le : ∀ index, index ≤ s.yearMonth.index → 24001 ≤ index → index ≤ 25212 →
    slack p ≤ monthsLeft index
  days_le : days p ≤ daysLeft s.dayKey

theorem Seeks.of_advances {s t : Slot} {p : Position} (h : Seeks e t p)
    (hst : Advances e s t) : Seeks e s p where
  sound := h.sound
  ahead u hu := (h.ahead u hu).trans (hst.ahead u hu)
  slack_le index hle := h.slack_le index (Int.le_trans hle hst.index_le)
  days_le := by
    have hdays := h.days_le
    have hkey := hst.dayKey_le
    unfold daysLeft at *
    omega

theorem seeks_check {s : Slot} (h : s.Allowed e) : Seeks e s (.check s) where
  sound := h
  ahead u _ := Iff.rfl
  slack_le index hle _ _ := by
    simp only [slack, monthsLeft]
    omega
  days_le := Nat.le_refl _

theorem seeks_roll {s : Slot} (h : s.Timely e) (hfits : ¬ s.Fits) :
    Seeks e s (.roll s.yearMonth) where
  sound := ⟨h.inYear, Nat.lt_of_lt_of_le (Nat.not_le.mp hfits) h.day_bounds.2⟩
  ahead u hu := by
    have huday := u.date.day_bounds.2
    have hsame : u.date.yearMonth.index = s.yearMonth.index → u.date.day < s.day := by
      intro heq
      rw [YearMonth.eq_of_index_eq u.date.inYear h.inYear heq] at huday
      exact Nat.lt_of_le_of_lt huday (Nat.not_le.mp hfits)
    rw [Slot.key_le_iff h.bounded]
    simp only [Ahead]
    omega
  slack_le index hle _ _ := by
    simp only [slack, monthsLeft]
    omega
  days_le := by
    have hday := h.day_bounds.2
    simp only [days, daysLeft, Slot.dayKey]
    omega

theorem enter_seeks {s : Slot} (h : s.Timely e) : Seeks e s (enter e s) := by
  unfold enter
  split
  · exact (seeks_check (align_allowed h)).of_advances (align_advances h)
  · exact seeks_roll h ‹_›

theorem seekDay_seeks {ym : YearMonth} {day hour minute : Nat} (hym : ym.InYear) (hday : day ≤ 32)
    (hhour : hour ∈ e.hours) (hminute : minute ∈ e.minutes) :
    Seeks e ⟨ym, day, hour, minute⟩ (seekDay e ym day hour minute) := by
  have hbounded : Slot.Bounded ⟨ym, day, hour, minute⟩ :=
    ⟨hday, (Field.mem_bounds hhour).2, (Field.mem_bounds hminute).2⟩
  unfold seekDay
  cases hnext : e.days.next? day with
  | some d =>
    obtain ⟨hmem, hle, hleast⟩ := Field.next?_eq_some_iff.mp hnext
    dsimp only
    split
    · have htimely : Slot.Timely ⟨ym, d, e.hours.first, e.minutes.first⟩ e :=
        ⟨hym, hmem, e.hours.first_mem, e.minutes.first_mem⟩
      refine (enter_seeks htimely).of_advances (.of_parts hbounded htimely (.inr ⟨rfl, hle⟩) ?_)
      intro u hu
      have huday := hleast _ hu.day_mem
      have huhour := Field.first_le hu.hour_mem
      have huminute := Field.first_le hu.minute_mem
      rw [Slot.key_le_iff hbounded, Slot.key_le_iff htimely.bounded]
      dsimp only
      omega
    · obtain rfl : d = day := by omega
      exact enter_seeks ⟨hym, hmem, hhour, hminute⟩
  | none =>
    have hnone := Field.next?_eq_none_iff.mp hnext
    have hfollowing := YearMonth.following_inYear hym
    have hindex := YearMonth.index_following hym
    have htimely := opening_timely (e := e) hfollowing
    refine (enter_seeks htimely).of_advances (.of_parts hbounded htimely (.inl ?_) ?_)
    · simp only [opening]
      omega
    · intro u hu
      have huday := hnone _ hu.day_mem
      rw [opening_key_le_iff hfollowing hu, Slot.key_le_iff hbounded]
      dsimp only
      omega

theorem start_seeks (m : Minute) : Seeks e m.slot (start e m) := by
  have hday := m.date.day_le
  have hbounded : m.slot.Bounded :=
    ⟨Nat.le_succ_of_le hday, Nat.le_of_lt_succ m.hour_lt, Nat.le_of_lt_succ m.minute_lt⟩
  unfold start
  cases hclock : clock? e m.hour m.minute with
  | some clock =>
    obtain ⟨hour, minute⟩ := clock
    obtain ⟨hhour, hminute, hleast⟩ := clock?_eq_some m.minute_lt hclock
    have hseeks := seekDay_seeks m.date.inYear (Nat.le_succ_of_le hday) hhour hminute
    refine hseeks.of_advances ⟨fun u hu => ?_, Int.le_refl _, Int.le_refl _⟩
    have hu := hleast _ hu.hour_mem _ hu.minute_mem
    rw [Slot.key_le_iff hbounded, Slot.key_le_iff
      ⟨Nat.le_succ_of_le hday, (Field.mem_bounds hhour).2, (Field.mem_bounds hminute).2⟩]
    simp only [Minute.slot]
    omega
  | none =>
    have hnone := clock?_eq_none m.minute_lt hclock
    have hseeks := seekDay_seeks m.date.inYear (Nat.succ_le_succ hday) e.hours.first_mem
      e.minutes.first_mem
    refine hseeks.of_advances ⟨fun u hu => ?_, Int.le_refl _, ?_⟩
    · have huclock := hnone _ hu.hour_mem _ hu.minute_mem
      have huhour := Field.first_le hu.hour_mem
      have huminute := Field.first_le hu.minute_mem
      rw [Slot.key_le_iff hbounded, Slot.key_le_iff ⟨Nat.succ_le_succ hday,
        (Field.mem_bounds e.hours.first_mem).2, (Field.mem_bounds e.minutes.first_mem).2⟩]
      simp only [Minute.slot]
      omega
    · simp only [Slot.dayKey, Minute.slot]
      omega

theorem monthAfter_spec {ym : YearMonth} (h : ym.InYear) :
    (monthAfter e ym).month ∈ e.months ∧ ∀ u, e.Admits u →
      ((monthAfter e ym).index ≤ u.date.yearMonth.index ↔ ym.index < u.date.yearMonth.index) := by
  unfold YearMonth.InYear at h
  unfold monthAfter
  cases hmonth : e.months.next? (ym.month + 1) with
  | some month =>
    obtain ⟨hmem, hle, hleast⟩ := Field.next?_eq_some_iff.mp hmonth
    have hbound := (Field.mem_bounds hmem).2
    simp only [Kind.greatest] at hbound
    refine ⟨hmem, fun u hu => ?_⟩
    have hu' := u.date.inYear
    have huleast := hleast _ hu.month_mem
    simp only [YearMonth.index, YearMonth.InYear, Date.yearMonth] at hu' ⊢
    omega
  | none =>
    have hnone := Field.next?_eq_none_iff.mp hmonth
    have hbound := (Field.mem_bounds e.months.first_mem).1
    have hbound' := (Field.mem_bounds e.months.first_mem).2
    simp only [Kind.least, Kind.greatest] at hbound hbound'
    refine ⟨e.months.first_mem, fun u hu => ?_⟩
    have hu' := u.date.inYear
    have hunone := hnone _ hu.month_mem
    have hufirst := Field.first_le hu.month_mem
    simp only [YearMonth.index, YearMonth.InYear, Date.yearMonth] at hu' ⊢
    omega

theorem index_lt_monthAfter {ym : YearMonth} (h : ym.InYear) :
    ym.index < (monthAfter e ym).index := by
  unfold YearMonth.InYear at h
  unfold monthAfter
  cases hmonth : e.months.next? (ym.month + 1) with
  | some month =>
    have hle := (Field.next?_eq_some_iff.mp hmonth).2.1
    simp only [YearMonth.index]
    omega
  | none =>
    have hbound := (Field.mem_bounds e.months.first_mem).1
    simp only [Kind.least] at hbound
    simp only [YearMonth.index]
    omega

theorem retry_goes {rejected : Minute} (h : e.Admits rejected) :
    ∃ q, move e (.retry rejected) = .go q ∧ (course e).Goes e (.retry rejected) q := by
  have hyear := h.year_bounds
  obtain ⟨date, hdate⟩ := Date.exists_succ? (d := rejected.date) (by simp only [maxYear]; omega)
  have hseeks := start_seeks (e := e) date.midnight
  have hnext := Date.key_le_of_succ? hdate
  have hself := (hnext date).mp (Int.le_refl _)
  have hinYear := rejected.date.inYear
  have hday := rejected.date.day_le
  have hday' := date.day_le
  have hindex : rejected.date.yearMonth.index ≤ date.yearMonth.index := by
    unfold Date.key at hself
    omega
  refine ⟨start e date.midnight, by simp [move, hdate], hseeks.sound, fun u hu => ?_, ?_, ?_⟩
  · have hudate := hnext u.date
    have huhour := u.hour_lt
    have huminute := u.minute_lt
    refine (hseeks.ahead u hu).trans ?_
    rw [← Slot.key_of_slot_eq rfl]
    simp only [course, Ahead, Minute.key, Date.midnight]
    omega
  · have hslack := hseeks.slack_le rejected.date.yearMonth.index hindex
    simp only [YearMonth.index, YearMonth.InYear, Date.yearMonth, course, slack] at *
    omega
  · have hdays := hseeks.days_le
    simp only [Slot.dayKey, Minute.slot, Date.midnight, daysLeft, days, course, Date.key] at *
    omega

theorem reject_lawful {s t : Slot} {m : Minute} (hst : Advances e s t) (hm : m.slot = t)
    (hadmits : e.Admits m) :
    (course e).Nearest e (.check s) m ∧ (m.date.weekday ∉ e.weekdays →
      (course e).Rejects e (move e) (.check s) m (.retry m)) := by
  have hkey := Slot.key_of_slot_eq hm
  have hyear := hadmits.year_bounds
  have hinYear := m.date.inYear
  have hnearest : (course e).Nearest e (.check s) m := by
    refine ⟨hadmits, (hst.ahead m hadmits).mp (Int.le_of_eq hkey.symm), fun u hu hahead => ?_⟩
    change m.key ≤ u.key
    rw [hkey]
    exact (hst.ahead u hu).mpr hahead
  have hindex : s.yearMonth.index ≤ m.date.yearMonth.index := by
    have := hst.index_le
    rwa [← hm] at this
  have hday : s.dayKey ≤ m.date.key := by
    have := hst.dayKey_le
    rwa [← hm] at this
  refine ⟨hnearest, fun hweekday => ⟨hnearest, hweekday, hadmits, fun u hu => ?_, ?_, ?_, ?_⟩⟩
  · have hahead := hst.ahead u hu
    rw [← hkey] at hahead
    exact Minute.date_key_lt_iff.trans (and_congr hahead ne_comm)
  · simp only [course, slack, monthsLeft]
    omega
  · simp only [course, days, daysLeft]
    unfold Date.key at hday ⊢
    simp only [YearMonth.index, YearMonth.InYear, Date.yearMonth] at *
    have := m.date.day_le
    omega
  · obtain ⟨q, hmove, -⟩ := retry_goes hadmits
    exact ⟨q, hmove⟩

theorem settle_lawful {s t : Slot} (hst : Advances e s t) (ht : t.Allowed e) (hyear : t.InYears e) :
    (course e).Lawful e (move e) (.check s) (settle e t) := by
  unfold settle
  split
  · next hfits =>
    obtain ⟨m, hminute, hm⟩ := ht.exists_minute? hyear hfits
    obtain ⟨hnearest, hreject⟩ := reject_lawful hst hm (ht.admits hyear hm)
    exact Slot.arrive_lawful hminute hnearest hreject
  · next hfits =>
    have hroll := seeks_roll ht.toTimely hfits
    obtain ⟨hmem, hafter⟩ := monthAfter_spec (e := e) ht.inYear
    have hinAfter : (monthAfter e t.yearMonth).InYear := Slot.inYear_of_mem hmem
    have hlt := index_lt_monthAfter (e := e) ht.inYear
    have hbounds := hyear.year_bounds
    have hinYear := ht.inYear
    have hle := hst.index_le
    refine .go ⟨opening_allowed hmem, fun u hu => ?_, ?_, ?_⟩
    · have hroll' := hroll.ahead u hu
      have hst' := hst.ahead u hu
      have hafter' := hafter u hu
      have hopening := opening_key_le_iff hinAfter hu
      exact hopening.trans (hafter'.trans (hroll'.trans hst'))
    · simp only [course, slack, monthsLeft, opening, YearMonth.index, YearMonth.InYear] at *
      omega
    · have hkey := hst.dayKey_le
      have hday := ht.day_bounds.2
      have hday' := (opening_timely (e := e) hinAfter).day_bounds
      simp only [course, days, daysLeft, Slot.dayKey, opening] at *
      omega

theorem move_check (s : Slot) :
    move e (.check s) =
      match e.years.next? s.yearMonth.year.toNat with
      | none => .exhausted s.yearMonth.year
      | some year =>
        if s.yearMonth.year < year then settle e (opening e ⟨year, e.months.first⟩)
        else settle e s := rfl

theorem check_lawful {s : Slot} (h : s.Allowed e) :
    (course e).Lawful e (move e) (.check s) (move e (.check s)) := by
  have hinYear := h.inYear
  rw [move_check]
  cases hnext : e.years.next? s.yearMonth.year.toNat with
  | none =>
    have hnone := Field.next?_eq_none_iff.mp hnext
    refine .exhausted (fun u hu hahead => ?_) fun y hy => Int.lt_toNat.mp (hnone y hy)
    have huyear := hnone _ hu.year_mem
    have hunonneg := hu.year_nonneg
    have hu' := u.date.inYear
    simp only [course, Ahead, Slot.key_le_iff h.bounded] at hahead
    simp only [YearMonth.index, YearMonth.InYear, Date.yearMonth] at *
    omega
  | some year =>
    obtain ⟨hmem, hle, hleast⟩ := Field.next?_eq_some_iff.mp hnext
    dsimp only
    split
    · have hfirst : (opening e ⟨year, e.months.first⟩).Allowed e :=
        opening_allowed e.months.first_mem
      have hjanuary : YearMonth.InYear ⟨year, e.months.first⟩ := hfirst.inYear
      refine settle_lawful (.of_parts h.bounded hfirst.toTimely (.inl ?_) fun u hu => ?_) hfirst
        ⟨year, hmem, rfl⟩
      · simp only [opening, YearMonth.index, YearMonth.InYear] at *
        omega
      · have huyear := hleast _ hu.year_mem
        have hunonneg := hu.year_nonneg
        have humonth := Field.first_le hu.month_mem
        have hu' := u.date.inYear
        rw [opening_key_le_iff hjanuary hu, Slot.key_le_iff h.bounded]
        simp only [opening, YearMonth.index, YearMonth.InYear, Date.yearMonth] at *
        omega
    · exact settle_lawful (.refl s) h ⟨year, hmem, by omega⟩

theorem opening_fits {ym : YearMonth} (h : ym.InYear) (hshort : ym.length < 31) :
    (opening e ym.following).Fits := by
  have hlength := (YearMonth.length_beside_short h hshort).1
  unfold Slot.Fits
  simp only [opening, hlength]
  exact (Field.mem_bounds e.days.first_mem).2

theorem roll_goes {ym : YearMonth} (h : ym.InYear) (hshort : ym.length < 31) :
    (course e).Goes e (.roll ym) (enter e (opening e ym.following)) := by
  have hfollowing := YearMonth.following_inYear h
  have hindex := YearMonth.index_following h
  have htimely := opening_timely (e := e) hfollowing
  have hfits := opening_fits (e := e) h hshort
  have hseeks := enter_seeks htimely
  refine ⟨hseeks.sound, fun u hu => ?_, ?_, ?_⟩
  · refine (hseeks.ahead u hu).trans ((opening_key_le_iff hfollowing hu).trans ?_)
    simp only [course, Ahead]
    omega
  · have hle : ym.following.index ≤ (align e (opening e ym.following)).yearMonth.index :=
      (align_advances htimely).index_le
    simp only [enter, if_pos hfits, course, slack, monthsLeft]
    omega
  · have hdays := hseeks.days_le
    simp only [course, days, daysLeft, Slot.dayKey, opening] at *
    omega

theorem governs (e : Entry) : (course e).Governs e (move e) := by
  intro p hp
  cases p with
  | roll ym => exact .go (roll_goes hp.1 hp.2)
  | check s => exact check_lawful hp
  | retry rejected =>
    obtain ⟨q, hmove, hgoes⟩ := retry_goes hp
    rw [hmove]
    exact .go hgoes

end CronCalendar.Search.Forward
