import CronCalendar.Proofs.Calendar.Order

/-!
# Neighbouring days and minutes

The day after a date is the next of its month, or the first of the following month when the month
is over; the day before is found likewise. Minutes step through hours and days in the same way. A
neighbour leaves no room: what is later than a minute is not earlier than its successor, and what is
earlier than a minute is not later than its predecessor.
-/

namespace CronCalendar

namespace Date

theorem ofParts?_eq_some_iff {year : Int} {month day : Nat} {d : Date} :
    ofParts? year month day = some d ↔ d.year = year ∧ d.month = month ∧ d.day = day := by
  unfold ofParts?
  constructor
  · intro h
    split at h
    · cases h
      exact ⟨rfl, rfl, rfl⟩
    · contradiction
  · rintro ⟨rfl, rfl, rfl⟩
    rw [dif_pos d.valid]

theorem exists_ofParts? {year : Int} {month day : Nat} (h : Valid year month day) :
    ∃ d, ofParts? year month day = some d := by
  exact ⟨_, dif_pos h⟩

theorem daysBefore_add_lack {year : Int} {month day : Nat} (hmonth : YearMonth.InYear ⟨year, month⟩)
    (hday : 1 ≤ day ∧ day ≤ YearMonth.length ⟨year, month⟩) :
    daysBefore year month + day +
        (if daysBefore year month + day + 306 ≤ yearLength year then 0
          else if isLeap year then 1 else 2) =
      (367 * month - 362) / 12 + day := by
  unfold YearMonth.InYear at hmonth
  dsimp at hmonth
  by_cases hearly : month ≤ 2
  · have hlength : YearMonth.length ⟨year, month⟩ + (367 * month - 362) / 12 + 306 ≤
        yearLength year := by
      have hcases : month = 1 ∨ month = 2 := by omega
      rcases hcases with rfl | rfl <;> cases hleap : isLeap year <;>
        simp [YearMonth.length, yearLength, hleap]
    have hcount : daysBefore year month = (367 * month - 362) / 12 := by
      rw [daysBefore, if_pos hearly, Nat.sub_zero]
    rw [hcount, if_pos (by omega), Nat.add_zero]
  · unfold daysBefore yearLength
    rw [if_neg hearly]
    split <;> rw [if_neg (by omega)] <;> omega

theorem month_of_quotient {year : Int} {month day : Nat} (hmonth : YearMonth.InYear ⟨year, month⟩)
    (hday : 1 ≤ day ∧ day ≤ YearMonth.length ⟨year, month⟩) :
    (12 * ((367 * month - 362) / 12 + day) + 361) / 367 = month := by
  have hlength := YearMonth.length_bounds ⟨year, month⟩
  have hshort : month = 2 ∨ month = 4 ∨ month = 6 ∨ month = 9 ∨ month = 11 →
      YearMonth.length ⟨year, month⟩ ≤ 30 := by
    rintro (rfl | rfl | rfl | rfl | rfl) <;> cases hleap : isLeap year <;>
      simp [YearMonth.length, hleap]
  have hcases : month = 1 ∨ month = 2 ∨ month = 3 ∨ month = 4 ∨ month = 5 ∨ month = 6 ∨
      month = 7 ∨ month = 8 ∨ month = 9 ∨ month = 10 ∨ month = 11 ∨ month = 12 := by
    unfold YearMonth.InYear at hmonth
    dsimp at hmonth
    omega
  rcases hcases with rfl | rfl | rfl | rfl | rfl | rfl | rfl | rfl | rfl | rfl | rfl | rfl <;>
    omega

theorem ofOrdinal?_daysBefore_add {year : Int} {month day : Nat}
    (hmonth : YearMonth.InYear ⟨year, month⟩)
    (hday : 1 ≤ day ∧ day ≤ YearMonth.length ⟨year, month⟩) :
    ofOrdinal? year (daysBefore year month + day) = ofParts? year month day := by
  simp only [ofOrdinal?, daysBefore_add_lack hmonth hday, month_of_quotient hmonth hday,
    Nat.add_sub_cancel_left]

theorem succ?_of_day_lt {d : Date} (h : d.day < d.yearMonth.length) :
    d.succ? = ofParts? d.year d.month (d.day + 1) := by
  have hle : daysBefore d.year d.month + d.yearMonth.length ≤ yearLength d.year :=
    daysBefore_add_length_le d.year d.inYear
  have hlt : d.ordinal < yearLength d.year := by
    unfold ordinal
    omega
  rw [succ?, if_pos hlt]
  exact ofOrdinal?_daysBefore_add d.inYear ⟨by omega, h⟩

theorem succ?_of_monthEnd {d : Date} (h : d.day = d.yearMonth.length) :
    d.succ? = ofParts? d.yearMonth.following.year d.yearMonth.following.month 1 := by
  by_cases hmonth : d.month = 12
  · have hend : ¬ d.ordinal < yearLength d.year := by
      have hdecember := daysBefore_december d.year
      have hlength : d.yearMonth.length = 31 := by
        rw [yearMonth, hmonth]
        rfl
      rw [ordinal, hmonth]
      omega
    have hfollowing : d.yearMonth.following = ⟨d.year + 1, 1⟩ := if_pos (by simp [yearMonth, hmonth])
    have hfirst : ofOrdinal? (d.year + 1) (daysBefore (d.year + 1) 1 + 1) =
        ofParts? (d.year + 1) 1 1 :=
      ofOrdinal?_daysBefore_add ⟨by simp, by simp⟩ ⟨by simp, by simp [YearMonth.length]⟩
    rw [succ?, if_neg hend, hfollowing]
    exact hfirst
  · have hlt : d.month < 12 := by
      have := d.inYear.2
      simp only [yearMonth] at this
      omega
    have hinYear : YearMonth.InYear ⟨d.year, d.month + 1⟩ := ⟨by simp, hlt⟩
    have hlength := YearMonth.length_bounds ⟨d.year, d.month + 1⟩
    have hle := daysBefore_add_length_le d.year hinYear
    have hordinal : d.ordinal = daysBefore d.year (d.month + 1) := by
      rw [daysBefore_succ d.year d.inYear hlt, ordinal, h]
      rfl
    have hfollowing : d.yearMonth.following = ⟨d.year, d.month + 1⟩ :=
      if_neg (by simp [yearMonth, hlt])
    rw [succ?, if_pos (by omega), hordinal, hfollowing]
    exact ofOrdinal?_daysBefore_add hinYear ⟨by decide, by omega⟩

theorem pred?_of_one_lt_day {d : Date} (h : 1 < d.day) :
    d.pred? = ofParts? d.year d.month (d.day - 1) := by
  have hday := d.day_bounds
  have hordinal : d.ordinal - 1 = daysBefore d.year d.month + (d.day - 1) := by
    unfold ordinal
    omega
  have hlt : 1 < d.ordinal := by
    unfold ordinal
    omega
  rw [pred?, if_pos hlt, hordinal]
  exact ofOrdinal?_daysBefore_add d.inYear ⟨by omega, by simp only [yearMonth] at hday; omega⟩

theorem pred?_of_monthStart {d : Date} (h : d.day = 1) :
    d.pred? = ofParts? d.yearMonth.preceding.year d.yearMonth.preceding.month
      d.yearMonth.preceding.length := by
  by_cases hmonth : d.month = 1
  · have hstart : d.ordinal = 1 := by
      rw [ordinal, hmonth, h]
      rfl
    have hpreceding : d.yearMonth.preceding = ⟨d.year - 1, 12⟩ :=
      if_pos (by simp [yearMonth, hmonth])
    rw [pred?, if_neg (by omega), hpreceding, ← daysBefore_december]
    exact ofOrdinal?_daysBefore_add ⟨by simp, by simp⟩ ⟨by simp, by simp [YearMonth.length]⟩
  · obtain ⟨month, hmonth'⟩ : ∃ month, d.month = month + 1 := ⟨d.month - 1, by
      have := d.inYear.1
      simp only [yearMonth] at this
      omega⟩
    have hinYear : YearMonth.InYear ⟨d.year, month⟩ := by
      have := d.inYear
      simp only [YearMonth.InYear, yearMonth] at this ⊢
      omega
    have hlength := YearMonth.length_bounds ⟨d.year, month⟩
    have hlt : month < 12 := by
      have := d.inYear.2
      simp only [yearMonth] at this
      omega
    have hordinal : d.ordinal =
        daysBefore d.year month + YearMonth.length ⟨d.year, month⟩ + 1 := by
      rw [ordinal, hmonth', daysBefore_succ d.year hinYear hlt, h]
    have hpreceding : d.yearMonth.preceding = ⟨d.year, month⟩ := by
      have hnot : ¬ d.yearMonth.month ≤ 1 := by
        have := d.inYear.1
        simp only [yearMonth] at this ⊢
        omega
      rw [YearMonth.preceding, if_neg hnot]
      simp [yearMonth, hmonth']
    rw [pred?, if_pos (by omega), hordinal, hpreceding, Nat.add_sub_cancel]
    exact ofOrdinal?_daysBefore_add hinYear ⟨by omega, Nat.le_refl _⟩

theorem key_le_of_succ? {d n : Date} (h : d.succ? = some n) (u : Date) :
    n.key ≤ u.key ↔ d.key < u.key := by
  have hd := d.day_bounds
  have hu := u.day_bounds
  have hd31 := d.day_le
  have hu31 := u.day_le
  by_cases hlast : d.day < d.yearMonth.length
  · rw [succ?_of_day_lt hlast, ofParts?_eq_some_iff] at h
    obtain ⟨hyear, hmonth, hday⟩ := h
    simp only [key, YearMonth.index, yearMonth, hyear, hmonth, hday]
    omega
  · rw [succ?_of_monthEnd (by omega), ofParts?_eq_some_iff] at h
    obtain ⟨hyear, hmonth, hday⟩ := h
    have hindex : n.yearMonth.index = d.yearMonth.index + 1 := by
      rw [← YearMonth.index_following d.inYear]
      simp only [YearMonth.index, yearMonth, hyear, hmonth]
    have hsame : u.yearMonth.index = d.yearMonth.index → u.day ≤ d.day := by
      intro heq
      rw [YearMonth.eq_of_index_eq u.inYear d.inYear heq] at hu
      omega
    unfold key
    omega

theorem le_key_of_pred? {d n : Date} (h : d.pred? = some n) (u : Date) :
    u.key ≤ n.key ↔ u.key < d.key := by
  have hd := d.day_bounds
  have hu := u.day_bounds
  have hu31 := u.day_le
  have hd31 := d.day_le
  by_cases hfirst : 1 < d.day
  · rw [pred?_of_one_lt_day hfirst, ofParts?_eq_some_iff] at h
    obtain ⟨hyear, hmonth, hday⟩ := h
    simp only [key, YearMonth.index, yearMonth, hyear, hmonth, hday]
    omega
  · rw [pred?_of_monthStart (by omega), ofParts?_eq_some_iff] at h
    obtain ⟨hyear, hmonth, hday⟩ := h
    have hym : n.yearMonth = d.yearMonth.preceding := by
      simp only [yearMonth, hyear, hmonth]
    have hindex : n.yearMonth.index = d.yearMonth.index - 1 := by
      rw [hym, YearMonth.index_preceding d.inYear]
    have hlength := n.day_le
    have hsame : u.yearMonth.index = n.yearMonth.index → u.day ≤ n.day := by
      intro heq
      rw [YearMonth.eq_of_index_eq u.inYear n.inYear heq] at hu
      rw [hday, ← hym]
      exact hu.2
    unfold key
    omega

def first : Date := ⟨minYear, 1, 1, by decide⟩

def last : Date := ⟨maxYear, 12, 31, by decide⟩

theorem following_year_le {d : Date} (hend : d.day = d.yearMonth.length) (h : d ≠ last) :
    d.yearMonth.following.year ≤ maxYear := by
  have hyear := d.valid.1.2
  have hmonth := d.inYear
  unfold YearMonth.following
  split
  · next hdecember =>
    refine Int.not_lt.mp fun hlt => h ?_
    have hym : d.yearMonth = ⟨maxYear, 12⟩ := by
      simp only [yearMonth, YearMonth.InYear] at *
      congr 1 <;> omega
    rw [hym] at hend
    exact eq_of_parts_eq hym hend
  · exact hyear

theorem le_preceding_year {d : Date} (hstart : d.day = 1) (h : d ≠ first) :
    minYear ≤ d.yearMonth.preceding.year := by
  have hyear := d.valid.1.1
  have hmonth := d.inYear
  unfold YearMonth.preceding
  split
  · next hjanuary =>
    refine Int.not_lt.mp fun hlt => h ?_
    have hym : d.yearMonth = ⟨minYear, 1⟩ := by
      simp only [yearMonth, YearMonth.InYear] at *
      congr 1 <;> omega
    exact eq_of_parts_eq hym hstart
  · exact hyear

theorem exists_succ?_of_ne_last {d : Date} (h : d ≠ last) : ∃ n, d.succ? = some n := by
  have hvalid := d.valid
  by_cases hlast : d.day < d.yearMonth.length
  · rw [succ?_of_day_lt hlast]
    exact exists_ofParts? ⟨hvalid.1, hvalid.2.1, by omega, hlast⟩
  · have hend : d.day = d.yearMonth.length := Nat.le_antisymm d.day_bounds.2 (Nat.not_lt.mp hlast)
    have hfrom : d.year ≤ d.yearMonth.following.year := by
      unfold YearMonth.following
      split <;> simp only [yearMonth] <;> omega
    have hlength : 1 ≤ d.yearMonth.following.length :=
      Nat.le_trans (by decide) d.yearMonth.following.length_bounds.1
    rw [succ?_of_monthEnd hend]
    exact exists_ofParts? ⟨⟨Int.le_trans hvalid.1.1 hfrom, following_year_le hend h⟩,
      YearMonth.following_inYear d.inYear, Nat.le_refl _, hlength⟩

theorem exists_pred?_of_ne_first {d : Date} (h : d ≠ first) : ∃ n, d.pred? = some n := by
  have hvalid := d.valid
  by_cases hfirst : 1 < d.day
  · rw [pred?_of_one_lt_day hfirst]
    have := hvalid.2.2.2
    exact exists_ofParts? ⟨hvalid.1, hvalid.2.1, by omega, by omega⟩
  · have hstart : d.day = 1 := Nat.le_antisymm (Nat.not_lt.mp hfirst) d.day_bounds.1
    have hto : d.yearMonth.preceding.year ≤ d.year := by
      unfold YearMonth.preceding
      split <;> simp only [yearMonth] <;> omega
    have hlength : 1 ≤ d.yearMonth.preceding.length :=
      Nat.le_trans (by decide) d.yearMonth.preceding.length_bounds.1
    rw [pred?_of_monthStart hstart]
    exact exists_ofParts? ⟨⟨le_preceding_year hstart h, Int.le_trans hto hvalid.1.2⟩,
      YearMonth.preceding_inYear d.inYear, hlength, Nat.le_refl _⟩

theorem succ?_eq_none_iff {d : Date} : d.succ? = none ↔ d = last := by
  refine ⟨fun hnone => ?_, ?_⟩
  · refine Decidable.not_not.mp fun hne => ?_
    obtain ⟨n, hn⟩ := exists_succ?_of_ne_last hne
    rw [hnone] at hn
    contradiction
  · rintro rfl
    decide

theorem pred?_eq_none_iff {d : Date} : d.pred? = none ↔ d = first := by
  refine ⟨fun hnone => ?_, ?_⟩
  · refine Decidable.not_not.mp fun hne => ?_
    obtain ⟨n, hn⟩ := exists_pred?_of_ne_first hne
    rw [hnone] at hn
    contradiction
  · rintro rfl
    decide

theorem exists_succ? {d : Date} (h : d.year < maxYear) : ∃ n, d.succ? = some n := by
  apply exists_succ?_of_ne_last
  rintro rfl
  exact absurd h (by decide)

theorem exists_pred? {d : Date} (h : minYear < d.year) : ∃ n, d.pred? = some n := by
  apply exists_pred?_of_ne_first
  rintro rfl
  exact absurd h (by decide)

end Date

namespace Minute

theorem key_le_of_succ? {m n : Minute} (h : m.succ? = some n) (u : Minute) :
    n.key ≤ u.key ↔ m.key < u.key := by
  have hu := u.hour_lt
  have hu' := u.minute_lt
  have hm := m.hour_lt
  have hm' := m.minute_lt
  unfold succ? at h
  split at h
  · cases h
    simp only [key]
    omega
  · split at h
    · cases h
      simp only [key]
      omega
    · obtain ⟨date, hdate, rfl⟩ := Option.map_eq_some_iff.mp h
      have hkey := Date.key_le_of_succ? hdate u.date
      have hself := Date.key_le_of_succ? hdate date
      simp only [key, Date.midnight]
      omega

theorem le_key_of_pred? {m n : Minute} (h : m.pred? = some n) (u : Minute) :
    u.key ≤ n.key ↔ u.key < m.key := by
  have hu := u.hour_lt
  have hu' := u.minute_lt
  unfold pred? at h
  split at h
  · cases h
    simp only [key]
    omega
  · split at h
    · cases h
      simp only [key]
      omega
    · obtain ⟨date, hdate, rfl⟩ := Option.map_eq_some_iff.mp h
      have hkey := Date.le_key_of_pred? hdate u.date
      have hself := Date.le_key_of_pred? hdate date
      simp only [key, Date.lastMinute]
      omega

theorem succ?_eq_none_iff {m : Minute} : m.succ? = none ↔ m = Date.last.lastMinute := by
  constructor
  · intro h
    unfold succ? at h
    split at h
    · contradiction
    · split at h
      · contradiction
      · next hminute hhour =>
        have hdate := Date.succ?_eq_none_iff.mp (Option.map_eq_none_iff.mp h)
        have hhour' : m.hour = 23 := by
          have := m.hour_lt
          omega
        have hminute' : m.minute = 59 := by
          have := m.minute_lt
          omega
        obtain ⟨date, hour, minute⟩ := m
        cases hdate
        cases hhour'
        cases hminute'
        rfl
  · rintro rfl
    decide

theorem pred?_eq_none_iff {m : Minute} : m.pred? = none ↔ m = Date.first.midnight := by
  constructor
  · intro h
    unfold pred? at h
    split at h
    · contradiction
    · split at h
      · contradiction
      · next hminute hhour =>
        have hdate := Date.pred?_eq_none_iff.mp (Option.map_eq_none_iff.mp h)
        have hhour' : m.hour = 0 := Nat.eq_zero_of_not_pos hhour
        have hminute' : m.minute = 0 := Nat.eq_zero_of_not_pos hminute
        obtain ⟨date, hour, minute⟩ := m
        cases hdate
        cases hhour'
        cases hminute'
        rfl
  · rintro rfl
    decide

theorem exists_succ? {m : Minute} (h : m.date.year < maxYear) : ∃ n, m.succ? = some n := by
  obtain ⟨date, hdate⟩ := Date.exists_succ? h
  unfold succ?
  split
  · exact ⟨_, rfl⟩
  · split
    · exact ⟨_, rfl⟩
    · exact ⟨date.midnight, by rw [hdate, Option.map_some]⟩

theorem exists_pred? {m : Minute} (h : minYear < m.date.year) : ∃ n, m.pred? = some n := by
  obtain ⟨date, hdate⟩ := Date.exists_pred? h
  unfold pred?
  split
  · exact ⟨_, rfl⟩
  · split
    · exact ⟨_, rfl⟩
    · exact ⟨date.lastMinute, by rw [hdate, Option.map_some]⟩

end Minute

end CronCalendar
