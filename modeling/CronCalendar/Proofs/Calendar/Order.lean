import CronCalendar.Calendar.Instant

/-!
# The order of days and minutes

Days are compared in two ways: by the day number, which counts elapsed days, and by the key, which
packs year, month and day into one integer so that its order is the order of the written date. The
two orders agree. Minutes inherit both, and a minute is later in elapsed time exactly when it is
later in its written parts.
-/

namespace CronCalendar

theorem isLeap_iff {year : Int} :
    isLeap year = true ↔ year % 4 = 0 ∧ year % 100 ≠ 0 ∨ year % 400 = 0 := by
  simp [isLeap]

namespace YearMonth

def index (ym : YearMonth) : Int := ym.year * 12 + ym.month

def InYear (ym : YearMonth) : Prop := 1 ≤ ym.month ∧ ym.month ≤ 12

theorem length_bounds (ym : YearMonth) : 28 ≤ ym.length ∧ ym.length ≤ 31 := by
  unfold length
  split
  · split <;> decide
  all_goals decide

theorem following_inYear {ym : YearMonth} (h : ym.InYear) : ym.following.InYear := by
  unfold InYear following at *
  split <;> dsimp <;> omega

theorem preceding_inYear {ym : YearMonth} (h : ym.InYear) : ym.preceding.InYear := by
  unfold InYear preceding at *
  split <;> dsimp <;> omega

theorem index_following {ym : YearMonth} (h : ym.InYear) : ym.following.index = ym.index + 1 := by
  unfold InYear at h
  unfold following
  split <;> simp only [index] <;> omega

theorem index_preceding {ym : YearMonth} (h : ym.InYear) : ym.preceding.index = ym.index - 1 := by
  unfold InYear at h
  unfold preceding
  split <;> simp only [index] <;> omega

theorem length_beside_short {ym : YearMonth} (h : ym.InYear) (hshort : ym.length < 31) :
    ym.following.length = 31 ∧ ym.preceding.length = 31 := by
  obtain ⟨year, month⟩ := ym
  unfold InYear at h
  dsimp at h
  have hmonth : month = 2 ∨ month = 4 ∨ month = 6 ∨ month = 9 ∨ month = 11 := by
    unfold length at hshort
    split at hshort <;> simp_all
  rcases hmonth with rfl | rfl | rfl | rfl | rfl <;> exact ⟨rfl, rfl⟩

theorem eq_of_index_eq {a b : YearMonth} (ha : a.InYear) (hb : b.InYear)
    (h : a.index = b.index) : a = b := by
  obtain ⟨year, month⟩ := a
  obtain ⟨year', month'⟩ := b
  simp only [InYear, index] at ha hb h
  have hyear : year = year' := by omega
  have hmonth : month = month' := by omega
  rw [hyear, hmonth]

end YearMonth

namespace Date

theorem inYear (d : Date) : d.yearMonth.InYear := d.valid.2.1

theorem day_bounds (d : Date) : 1 ≤ d.day ∧ d.day ≤ d.yearMonth.length := d.valid.2.2

theorem day_le (d : Date) : d.day ≤ 31 := Nat.le_trans d.day_bounds.2 d.yearMonth.length_bounds.2

theorem eq_of_parts_eq {a b : Date} (hym : a.yearMonth = b.yearMonth) (hday : a.day = b.day) :
    a = b := by
  obtain ⟨year, month, day, ha⟩ := a
  obtain ⟨year', month', day', hb⟩ := b
  cases hym
  cases hday
  rfl

def key (d : Date) : Int := d.yearMonth.index * 32 + d.day

theorem key_lt_key_iff {a b : Date} :
    a.key < b.key ↔ a.yearMonth.index < b.yearMonth.index ∨
      a.yearMonth.index = b.yearMonth.index ∧ a.day < b.day := by
  have ha := a.day_le
  have hb := b.day_le
  unfold key
  omega

theorem eq_of_key_eq {a b : Date} (h : a.key = b.key) : a = b := by
  have ha := a.day_le
  have hb := b.day_le
  unfold key at h
  have hindex : a.yearMonth.index = b.yearMonth.index := by omega
  exact eq_of_parts_eq (YearMonth.eq_of_index_eq a.inYear b.inYear hindex) (by omega)

theorem daysBefore_succ {month : Nat} (year : Int) (h : YearMonth.InYear ⟨year, month⟩)
    (hlt : month < 12) :
    daysBefore year (month + 1) = daysBefore year month + YearMonth.length ⟨year, month⟩ := by
  unfold YearMonth.InYear at h
  dsimp at h
  have hmonth : month = 1 ∨ month = 2 ∨ month = 3 ∨ month = 4 ∨ month = 5 ∨ month = 6 ∨
      month = 7 ∨ month = 8 ∨ month = 9 ∨ month = 10 ∨ month = 11 := by omega
  rcases hmonth with rfl | rfl | rfl | rfl | rfl | rfl | rfl | rfl | rfl | rfl | rfl <;>
    cases hleap : isLeap year <;> simp [daysBefore, YearMonth.length, hleap]

theorem daysBefore_mono {month month' : Nat} (year : Int) (h : month ≤ month') :
    daysBefore year month ≤ daysBefore year month' := by
  unfold daysBefore
  cases isLeap year <;> simp only [Bool.false_eq_true, if_false, if_true] <;> split <;> split <;>
    omega

theorem daysBefore_december (year : Int) : daysBefore year 12 + 31 = yearLength year := by
  cases hleap : isLeap year <;> simp [daysBefore, yearLength, hleap]

theorem daysBefore_add_le {month month' : Nat} (year : Int) (h : YearMonth.InYear ⟨year, month⟩)
    (hlt : month < month') (h' : month' ≤ 12) :
    daysBefore year month + YearMonth.length ⟨year, month⟩ ≤ daysBefore year month' := by
  rw [← daysBefore_succ year h (by omega)]
  exact daysBefore_mono year hlt

theorem daysBefore_add_length_le {month : Nat} (year : Int) (h : YearMonth.InYear ⟨year, month⟩) :
    daysBefore year month + YearMonth.length ⟨year, month⟩ ≤ yearLength year := by
  have hdecember := daysBefore_december year
  by_cases hlt : month < 12
  · have hle := daysBefore_add_le year h hlt (Nat.le_refl 12)
    omega
  · have htwelve : month = 12 := Nat.le_antisymm h.2 (Nat.not_lt.mp hlt)
    subst htwelve
    exact Nat.le_of_eq hdecember

theorem ordinal_bounds (d : Date) : 1 ≤ d.ordinal ∧ d.ordinal ≤ yearLength d.year := by
  have hday := d.day_bounds
  have hle : daysBefore d.year d.month + d.yearMonth.length ≤ yearLength d.year :=
    daysBefore_add_length_le d.year d.inYear
  unfold ordinal
  omega

theorem ordinal_lt_ordinal {a b : Date} (hyear : a.year = b.year)
    (h : a.month < b.month ∨ a.month = b.month ∧ a.day < b.day) : a.ordinal < b.ordinal := by
  have ha := a.day_bounds
  have hb := b.day_bounds
  unfold ordinal
  rw [← hyear]
  rcases h with hlt | ⟨heq, hlt⟩
  · have hle := daysBefore_add_le a.year a.inYear hlt b.inYear.2
    change daysBefore a.year a.month + a.yearMonth.length ≤ _ at hle
    omega
  · rw [← heq]
    omega

def daysBeforeYear (year : Int) : Int :=
  365 * (year - 1) + (year - 1) / 4 - (year - 1) / 100 + (year - 1) / 400

theorem dayNumber_eq (d : Date) : d.dayNumber = daysBeforeYear d.year + d.ordinal := rfl

theorem daysBeforeYear_succ (year : Int) :
    daysBeforeYear (year + 1) = daysBeforeYear year + yearLength year := by
  unfold daysBeforeYear yearLength
  by_cases hleap : isLeap year = true
  · rw [if_pos hleap]
    rw [isLeap_iff] at hleap
    omega
  · rw [if_neg hleap]
    rw [isLeap_iff] at hleap
    omega

theorem daysBeforeYear_add_le {year year' : Int} (h : year < year') :
    daysBeforeYear year + yearLength year ≤ daysBeforeYear year' := by
  rw [← daysBeforeYear_succ]
  unfold daysBeforeYear
  omega

theorem dayNumber_lt_of_key_lt {a b : Date} (h : a.key < b.key) : a.dayNumber < b.dayNumber := by
  have ha := a.ordinal_bounds
  have hb := b.ordinal_bounds
  have hamonth := a.inYear
  have hbmonth := b.inYear
  rw [dayNumber_eq, dayNumber_eq]
  rw [key_lt_key_iff] at h
  simp only [YearMonth.index, YearMonth.InYear, yearMonth] at h hamonth hbmonth
  by_cases hyear : a.year < b.year
  · have := daysBeforeYear_add_le hyear
    omega
  · have heq : a.year = b.year := by omega
    have := ordinal_lt_ordinal heq (by omega)
    rw [heq]
    omega

theorem dayNumber_lt_iff {a b : Date} : a.dayNumber < b.dayNumber ↔ a.key < b.key := by
  refine ⟨fun h => ?_, dayNumber_lt_of_key_lt⟩
  rcases Int.lt_trichotomy a.key b.key with hlt | heq | hgt
  · exact hlt
  · rw [eq_of_key_eq heq] at h
    omega
  · have := dayNumber_lt_of_key_lt hgt
    omega

end Date

namespace Minute

def key (m : Minute) : Int := m.date.key * 1440 + (m.hour * 60 + m.minute)

theorem date_key_lt_iff {a b : Minute} :
    a.date.key < b.date.key ↔ a.key ≤ b.key ∧ a.date ≠ b.date := by
  have ha := a.hour_lt
  have ha' := a.minute_lt
  have hb := b.hour_lt
  have hb' := b.minute_lt
  have hdate : a.date = b.date ↔ a.date.key = b.date.key :=
    ⟨congrArg Date.key, Date.eq_of_key_eq⟩
  rw [ne_eq, hdate]
  unfold key
  omega

theorem year_le_of_key_le {a b : Minute} (h : a.key ≤ b.key) : a.date.year ≤ b.date.year := by
  have ha := a.date.inYear
  have hb := b.date.inYear
  have ha' := a.date.day_le
  have hb' := b.date.day_le
  have hhour := b.hour_lt
  have hminute := b.minute_lt
  simp only [key, Date.key, YearMonth.index, YearMonth.InYear, Date.yearMonth] at *
  omega

theorem key_lt_of_year_lt {a b : Minute} (h : a.date.year < b.date.year) : a.key < b.key := by
  refine Int.not_le.mp fun hle => ?_
  have := year_le_of_key_le hle
  omega

theorem elapsed_lt_iff {a b : Minute} : a.elapsed < b.elapsed ↔ a.key < b.key := by
  have ha := a.hour_lt
  have ha' := a.minute_lt
  have hb := b.hour_lt
  have hb' := b.minute_lt
  have hlt := Date.dayNumber_lt_iff (a := a.date) (b := b.date)
  have hgt := Date.dayNumber_lt_iff (a := b.date) (b := a.date)
  unfold elapsed key
  omega

theorem elapsed_le_iff {a b : Minute} : a.elapsed ≤ b.elapsed ↔ a.key ≤ b.key := by
  rw [← Int.not_lt, elapsed_lt_iff, Int.not_lt]

theorem eq_of_key_eq {a b : Minute} (h : a.key = b.key) : a = b := by
  have ha := a.hour_lt
  have ha' := a.minute_lt
  have hb := b.hour_lt
  have hb' := b.minute_lt
  have hdate : a.date = b.date := Date.eq_of_key_eq (by unfold key at h; omega)
  have hhour : a.hour = b.hour := by rw [key, key, hdate] at h; omega
  have hminute : a.minute = b.minute := by rw [key, key, hdate] at h; omega
  obtain ⟨date, hour, minute⟩ := a
  obtain ⟨date', hour', minute'⟩ := b
  cases hdate
  cases hhour
  cases hminute
  rfl

end Minute

end CronCalendar
