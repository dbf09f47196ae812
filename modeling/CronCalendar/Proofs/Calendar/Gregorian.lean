import CronCalendar.Proofs.Calendar.Neighbours
import CronCalendar.Proofs.Search.Nearest
import Mathlib.Data.Prod.Lex
import Mathlib.Tactic.IntervalCases

/-!
# The Gregorian calendar

The Gregorian year is written out here by its months, with the leap years told by divisibility. The
representable dates are exactly its days. The day after a date is the one that the lengths of months
give, the date with the next day number and the next weekday, and the date whose day before it is;
so the calendar that a search walks by months is the one that it counts days on. Minutes elapse in
the order in which they are written.
-/

namespace CronCalendar

namespace Gregorian

def LeapYear (year : Int) : Prop := 4 ∣ year ∧ (100 ∣ year → 400 ∣ year)

instance (year : Int) : Decidable (LeapYear year) := by
  unfold LeapYear; infer_instance

def months (year : Int) : List (Nat × Nat) :=
  [(1, 31), (2, if LeapYear year then 29 else 28), (3, 31), (4, 30), (5, 31), (6, 30), (7, 31),
    (8, 31), (9, 30), (10, 31), (11, 30), (12, 31)]

def days (year : Int) : List (Nat × Nat) :=
  (months year).flatMap fun (month, length) => (List.range' 1 length).map fun day => (month, day)

theorem isLeap_iff_leapYear {year : Int} : isLeap year = true ↔ LeapYear year := by
  rw [isLeap_iff]
  unfold LeapYear
  omega

theorem isLeap_eq_tmod (year : Int) :
    isLeap year =
      ((year.tmod 4 == 0 && year.tmod 100 != 0) || year.tmod 400 == 0) := by
  have hzero (m : Int) : (year % m == 0) = (year.tmod m == 0) := by
    rw [Bool.eq_iff_iff, beq_iff_eq, beq_iff_eq, ← Int.dvd_iff_tmod_eq_zero,
      Int.dvd_iff_emod_eq_zero]
  simp only [isLeap, bne, hzero]

theorem mem_months {year : Int} {month length : Nat} :
    (month, length) ∈ months year ↔
      (1 ≤ month ∧ month ≤ 12) ∧ length = YearMonth.length ⟨year, month⟩ := by
  have hleap : isLeap year = decide (LeapYear year) := by
    rw [Bool.eq_iff_iff, isLeap_iff_leapYear, decide_eq_true_eq]
  simp only [months, List.mem_cons, Prod.mk.injEq, List.not_mem_nil, or_false]
  constructor
  · rintro (⟨rfl, rfl⟩ | ⟨rfl, rfl⟩ | ⟨rfl, rfl⟩ | ⟨rfl, rfl⟩ | ⟨rfl, rfl⟩ | ⟨rfl, rfl⟩ |
      ⟨rfl, rfl⟩ | ⟨rfl, rfl⟩ | ⟨rfl, rfl⟩ | ⟨rfl, rfl⟩ | ⟨rfl, rfl⟩ | ⟨rfl, rfl⟩) <;>
      simp [YearMonth.length, hleap]
  · rintro ⟨⟨hleast, hgreatest⟩, rfl⟩
    interval_cases month <;> simp [YearMonth.length, hleap]

theorem mem_days {year : Int} {month day : Nat} :
    (month, day) ∈ days year ↔
      (1 ≤ month ∧ month ≤ 12) ∧ 1 ≤ day ∧ day ≤ YearMonth.length ⟨year, month⟩ := by
  simp only [days, List.mem_flatMap, Prod.exists, List.mem_map, List.mem_range'_1, Prod.mk.injEq,
    mem_months]
  constructor
  · rintro ⟨_, _, ⟨hmonth, rfl⟩, _, hday, rfl, rfl⟩
    exact ⟨hmonth, by omega⟩
  · rintro ⟨hmonth, hday⟩
    exact ⟨month, _, ⟨hmonth, rfl⟩, day, by omega, rfl, rfl⟩

end Gregorian

namespace Date

variable {d n : Date} {year : Int} {month day number : Nat}

theorem ofParts?_isSome_iff :
    (ofParts? year month day).isSome = true ↔ Valid year month day := by
  unfold ofParts?
  split <;> simp [*]

theorem ordinal_of_ofOrdinal? (h : ofOrdinal? year number = some d) :
    d.year = year ∧ d.ordinal = number := by
  unfold ofOrdinal? at h
  obtain ⟨hyear, hmonth, hday⟩ := ofParts?_eq_some_iff.mp h
  have hpos := d.day_bounds.1
  rw [← hmonth, ← hyear] at hday
  refine ⟨hyear, ?_⟩
  unfold ordinal
  omega

theorem dayNumber_of_succ? (h : d.succ? = some n) : n.dayNumber = d.dayNumber + 1 := by
  have hle := d.ordinal_bounds.2
  unfold succ? at h
  split at h
  · obtain ⟨hyear, hordinal⟩ := ordinal_of_ofOrdinal? h
    rw [dayNumber_eq, dayNumber_eq, hyear, hordinal]
    omega
  · obtain ⟨hyear, hordinal⟩ := ordinal_of_ofOrdinal? h
    rw [dayNumber_eq, dayNumber_eq, hyear, hordinal, daysBeforeYear_succ]
    omega

theorem dayNumber_of_pred? (h : n.pred? = some d) : n.dayNumber = d.dayNumber + 1 := by
  have hle := n.ordinal_bounds.1
  unfold pred? at h
  split at h
  · obtain ⟨hyear, hordinal⟩ := ordinal_of_ofOrdinal? h
    rw [dayNumber_eq, dayNumber_eq, hyear, hordinal]
    omega
  · obtain ⟨hyear, hordinal⟩ := ordinal_of_ofOrdinal? h
    have hsucc := daysBeforeYear_succ (n.year - 1)
    rw [Int.sub_add_cancel] at hsucc
    rw [dayNumber_eq, dayNumber_eq, hyear, hordinal]
    omega

theorem eq_of_dayNumber_eq (h : d.dayNumber = n.dayNumber) : d = n := by
  have hlt := dayNumber_lt_iff (a := d) (b := n)
  have hgt := dayNumber_lt_iff (a := n) (b := d)
  exact eq_of_key_eq (by omega)

theorem key_le_last (d : Date) : d.key ≤ last.key := by
  have hyear := d.valid.1.2
  have hmonth := d.inYear.2
  have hday := d.day_le
  change d.key ≤ (maxYear * 12 + 12) * 32 + 31
  simp only [key, YearMonth.index, yearMonth] at *
  omega

theorem first_le_key (d : Date) : first.key ≤ d.key := by
  have hyear := d.valid.1.1
  have hmonth := d.inYear.1
  have hday := d.day_bounds.1
  change (minYear * 12 + 1) * 32 + 1 ≤ d.key
  simp only [key, YearMonth.index, yearMonth] at *
  omega

theorem succ?_eq_some_iff_dayNumber : d.succ? = some n ↔ n.dayNumber = d.dayNumber + 1 := by
  refine ⟨dayNumber_of_succ?, fun h => ?_⟩
  have hne : d ≠ last := by
    rintro rfl
    have hkey := dayNumber_lt_iff.mp (show last.dayNumber < n.dayNumber by omega)
    exact Int.not_lt.mpr n.key_le_last hkey
  obtain ⟨m, hm⟩ := exists_succ?_of_ne_last hne
  rw [hm, eq_of_dayNumber_eq (h.trans (dayNumber_of_succ? hm).symm)]

theorem pred?_eq_some_iff_dayNumber : n.pred? = some d ↔ n.dayNumber = d.dayNumber + 1 := by
  refine ⟨dayNumber_of_pred?, fun h => ?_⟩
  have hne : n ≠ first := by
    rintro rfl
    have hkey := dayNumber_lt_iff.mp (show d.dayNumber < first.dayNumber by omega)
    exact Int.not_lt.mpr d.first_le_key hkey
  obtain ⟨m, hm⟩ := exists_pred?_of_ne_first hne
  have hsame : m.dayNumber = d.dayNumber := by
    have hpred := dayNumber_of_pred? hm
    omega
  rw [hm, eq_of_dayNumber_eq hsame]

theorem pred?_eq_some_iff_succ? : n.pred? = some d ↔ d.succ? = some n :=
  pred?_eq_some_iff_dayNumber.trans succ?_eq_some_iff_dayNumber.symm

theorem weekday_of_succ? (h : d.succ? = some n) : n.weekday = (d.weekday + 1) % 7 := by
  unfold weekday
  rw [dayNumber_of_succ? h]
  omega

theorem ofParts?_eq_some_iff_yearMonth (ym : YearMonth) :
    ofParts? ym.year ym.month day = some d ↔ (d.yearMonth, d.day) = (ym, day) := by
  rw [ofParts?_eq_some_iff]
  obtain ⟨year, month⟩ := ym
  simp [yearMonth, and_assoc]

theorem succ?_eq_some_iff_parts :
    d.succ? = some n ↔ (n.yearMonth, n.day) =
      if d.day < d.yearMonth.length then (d.yearMonth, d.day + 1)
      else (d.yearMonth.following, 1) := by
  split
  · next hlt =>
    rw [succ?_of_day_lt hlt]
    exact ofParts?_eq_some_iff_yearMonth d.yearMonth
  · next hend =>
    rw [succ?_of_monthEnd (Nat.le_antisymm d.day_bounds.2 (Nat.not_lt.mp hend))]
    exact ofParts?_eq_some_iff_yearMonth d.yearMonth.following

theorem pred?_eq_some_iff_parts :
    n.pred? = some d ↔ (d.yearMonth, d.day) =
      if 1 < n.day then (n.yearMonth, n.day - 1)
      else (n.yearMonth.preceding, n.yearMonth.preceding.length) := by
  split
  · next hlt =>
    rw [pred?_of_one_lt_day hlt]
    exact ofParts?_eq_some_iff_yearMonth n.yearMonth
  · next hstart =>
    rw [pred?_of_monthStart (Nat.le_antisymm (Nat.not_lt.mp hstart) n.day_bounds.1)]
    exact ofParts?_eq_some_iff_yearMonth n.yearMonth.preceding

end Date

namespace Minute

def written (m : Minute) : Int ×ₗ Nat ×ₗ Nat ×ₗ Nat ×ₗ Nat :=
  toLex (m.date.year, toLex (m.date.month, toLex (m.date.day, toLex (m.hour, m.minute))))

theorem written_lt_iff {a b : Minute} : a.written < b.written ↔ a.elapsed < b.elapsed := by
  have ha := a.date.inYear
  have hb := b.date.inYear
  have ha' := a.date.day_le
  have hb' := b.date.day_le
  have hhour := a.hour_lt
  have hhour' := b.hour_lt
  have hminute := a.minute_lt
  have hminute' := b.minute_lt
  simp only [YearMonth.InYear, Date.yearMonth] at ha hb
  rw [elapsed_lt_iff]
  simp only [written, Prod.Lex.toLex_lt_toLex, key, Date.key, YearMonth.index, Date.yearMonth]
  omega

end Minute

/-- The dates of a year are the days of its months, with one rule for all years. The days next to a
date are those that the months give, each is the other's neighbour, and between them the day number
and the weekday go on by one. Only the ends of the calendar lack a neighbour. Whole minutes are as
early as they are written. -/
theorem calendar_agrees :
    (∀ (year : Int) (month day : Nat), minYear ≤ year ∧ year ≤ maxYear → 1 ≤ month ∧ month ≤ 12 →
      ((Date.ofParts? year month day).isSome = true ↔
        1 ≤ day ∧ day ≤ YearMonth.length ⟨year, month⟩) ∧
      ((Date.ofParts? year month day).isSome = true ↔ (month, day) ∈ Gregorian.days year)) ∧
    (∀ year : Int, isLeap year =
      ((year.tmod 4 == 0 && year.tmod 100 != 0) || year.tmod 400 == 0)) ∧
    (∀ d n : Date,
      (d.succ? = some n ↔ (n.yearMonth, n.day) =
        if d.day < d.yearMonth.length then (d.yearMonth, d.day + 1)
        else (d.yearMonth.following, 1)) ∧
      (n.pred? = some d ↔ (d.yearMonth, d.day) =
        if 1 < n.day then (n.yearMonth, n.day - 1)
        else (n.yearMonth.preceding, n.yearMonth.preceding.length)) ∧
      (n.pred? = some d ↔ d.succ? = some n) ∧
      (d.succ? = some n ↔ n.dayNumber = d.dayNumber + 1) ∧
      (d.succ? = some n → n.weekday = (d.weekday + 1) % 7)) ∧
    (∀ d : Date, (d.succ? = none ↔ d = Date.last) ∧ (d.pred? = none ↔ d = Date.first)) ∧
    ∀ a b : Minute, (a.start < b.start ↔ a.elapsed < b.elapsed) ∧
      (a.elapsed < b.elapsed ↔ a.written < b.written) := by
  refine ⟨fun year month day hyear hmonth => ?_, Gregorian.isLeap_eq_tmod,
    fun d n => ⟨Date.succ?_eq_some_iff_parts, Date.pred?_eq_some_iff_parts,
      Date.pred?_eq_some_iff_succ?, Date.succ?_eq_some_iff_dayNumber, Date.weekday_of_succ?⟩,
    fun d => ⟨Date.succ?_eq_none_iff, Date.pred?_eq_none_iff⟩, fun a b => ⟨?_, ?_⟩⟩
  · rw [Date.ofParts?_isSome_iff, Gregorian.mem_days]
    unfold Date.Valid
    simp only [hyear, hmonth, true_and, and_self]
  · rw [Instant.start_lt_start_iff, Minute.elapsed_lt_iff]
  · exact Minute.written_lt_iff.symm

theorem yearZero_agrees :
    let eve : Date := ⟨-1, 12, 31, by decide⟩
    let newYear : Date := ⟨0, 1, 1, by decide⟩
    (Date.ofParts? 0 2 29).isSome = true ∧ (Date.ofParts? (-100) 2 29).isSome = false ∧
      eve.succ? = some newYear ∧ newYear.pred? = some eve ∧
      eve.weekday = 5 ∧ newYear.weekday = 6 ∧
      eve.lastMinute.start < newYear.midnight.start := by
  intro eve newYear
  obtain ⟨hexists, -, hneighbours, -, horder⟩ := calendar_agrees
  obtain ⟨hsucc, -, hinverse, -, hweekday⟩ := hneighbours eve newYear
  have hnext : eve.succ? = some newYear := hsucc.mpr (by decide)
  have hfriday : eve.weekday = 5 := by decide
  have hsaturday := hweekday hnext
  rw [hfriday] at hsaturday
  have hleap : (Date.ofParts? 0 2 29).isSome = true :=
    (hexists 0 2 29 (by decide) (by decide)).1.mpr (by decide)
  have hcentury : (Date.ofParts? (-100) 2 29).isSome = false :=
    Bool.eq_false_iff.mpr ((hexists (-100) 2 29 (by decide) (by decide)).1.not.mpr (by decide))
  have hlater : eve.lastMinute.start < newYear.midnight.start :=
    (horder _ _).1.mpr ((horder _ _).2.mpr (by decide))
  exact ⟨hleap, hcentury, hnext, hinverse.mpr hnext, hfriday, hsaturday, hlater⟩

end CronCalendar
