import CronCalendar.Proofs.Search.Nearest

/-!
# What the default step limit can hide

The limit guards against entries that never fire, but a search that would have found a trigger can
be cut by it as well. What costs steps are decoys, minutes on days that every field but the day of
the week allows: a search meets them one after the other before it meets a trigger, and each of them
takes two steps. Under the default limit no trigger is hidden by fewer than 1894 decoys, and every
trigger is hidden by 2500 of them.
-/

namespace CronCalendar

namespace Entry

open Search

/-- Minutes on different days beyond the reference, short of every trigger there, that only the day
of the week keeps from being triggers. -/
structure Decoys (e : Entry) (d : Direction) (t : Instant) (decoys : List Minute) : Prop where
  dates : (decoys.map Minute.date).Nodup
  admits : ∀ m ∈ decoys, e.Admits m
  weekday : ∀ m ∈ decoys, m.date.weekday ∉ e.weekdays
  beyond : ∀ m ∈ decoys, d.Beyond t m.start
  short : ∀ m ∈ decoys, ∀ u : Instant, u.Aligned → d.Beyond t u → e.Matches u → d.Beyond m.start u

variable {e : Entry} {d : Direction} {t : Instant} {m : Minute} {decoys : List Minute}

theorem rejected_decoys (h : base? d t = some m) (limit : Nat) :
    e.Decoys d t (e.walk d limit m).rejected := by
  have hwalk := (e.lawfulWalk d limit m).rejected
  have hordered := (e.lawfulWalk d limit m).rejected_ordered
  constructor
  · exact List.pairwise_map.mpr (hordered.imp And.right)
  · intro r hr
    exact (hwalk r hr).1
  · intro r hr
    exact (hwalk r hr).2.1
  · intro r hr
    obtain ⟨hadmits, -, hahead⟩ := hwalk r hr
    exact (leads_base_iff h r).mp (((e.conduct d m).ahead r hadmits).mp hahead)
  · intro r hr u hu hbeyond hmatches
    have hfires : e.Fires u.minute := hmatches
    have hahead : (e.conduct d m).course.Ahead (e.conduct d m).start u.minute := by
      rw [(e.conduct d m).ahead _ (fires_iff.mp hfires).1, leads_base_iff h, ← hu.eq_start]
      exact hbeyond
    have hleads := (e.lawfulWalk d limit m).rejected_leads hfires hahead
    rw [(e.conduct d m).direction] at hleads
    rw [hu.eq_start]
    refine Direction.beyond_of_leads (hleads r hr) fun hdate => (hwalk r hr).2.1 ?_
    rw [hdate]
    exact (fires_iff.mp hfires).2

theorem walk_steps_le {limit steps : Nat}
    (h : (e.walk d limit m).outcome = .unreachable steps) :
    steps ≤ 2 * (e.walk d limit m).rejected.length + 1214 := by
  have hslack := (e.conduct d m).slack_le
  have hle := (e.lawfulWalk d limit m).steps_le h
  omega

theorem walk_covers (h : base? d t = some m) (limit : Nat) {u : Minute} (hu : e.Admits u)
    (hbeyond : d.Beyond t u.start) :
    (∃ r ∈ (e.walk d limit m).rejected, r.date = u.date) ∨
      (∀ r ∈ (e.walk d limit m).rejected, d.Leads r u) ∧
        (e.walk d limit m).outcome.EndsBefore d limit u := by
  have hahead := ((e.conduct d m).ahead u hu).mpr ((leads_base_iff h u).mpr hbeyond)
  have hcovers := (e.lawfulWalk d limit m).covers hu hahead
  rwa [(e.conduct d m).direction, Nat.zero_add] at hcovers

theorem rejected_covers (h : base? d t = some m) {limit : Nat} {trigger : Minute}
    (hfound : (e.walk d limit m).outcome = .found trigger) {u : Minute} (hu : e.Admits u)
    (hbeyond : d.Beyond t u.start) (hshort : d.Beyond u.start trigger.start) :
    ∃ r ∈ (e.walk d limit m).rejected, r.date = u.date := by
  rcases walk_covers h limit hu hbeyond with hmem | ⟨-, hends⟩
  · exact hmem
  · rw [hfound] at hends
    exact absurd hends (Direction.not_leads_of_beyond hshort)

theorem two_mul_decoys_lt (h : base? d t = some m) (hdecoys : e.Decoys d t decoys) {limit : Nat}
    {trigger : Minute} (hfound : (e.walk d limit m).outcome = .found trigger) :
    2 * decoys.length < limit := by
  have hsettles := e.walk_settles d limit m
  rw [hfound] at hsettles
  obtain ⟨hfires, hahead, -⟩ := hsettles
  have hbeyond := (leads_base_iff h trigger).mp hahead
  have hlt : 0 + 2 * (e.walk d limit m).rejected.length < limit :=
    ((e.lawfulWalk d limit m).two_mul_rejected_lt (fun _ _ => Nat.le_of_eq (Nat.zero_add limit))
      (by simp [hfound])).1
  -- the trigger lies behind every decoy, so the walk has rejected each of their days
  have hsubset : decoys.map Minute.date ⊆ (e.walk d limit m).rejected.map Minute.date := by
    intro date hdate
    obtain ⟨r, hr, rfl⟩ := List.mem_map.mp hdate
    have hshort := hdecoys.short r hr trigger.start (Instant.aligned_start trigger) hbeyond hfires
    exact List.mem_map.mpr
      (rejected_covers h hfound (hdecoys.admits r hr) (hdecoys.beyond r hr) hshort)
  have hle := hdecoys.dates.length_le_of_subset hsubset
  rw [List.length_map, List.length_map] at hle
  omega

/-- Decoys that take more steps than the limit grants hide the triggers behind them. -/
theorem seek_of_decoys (hdecoys : e.Decoys d t decoys)
    (hlimit : e.config.maxSteps.toNat ≤ 2 * decoys.length) {u : Instant} (hu : u.Aligned)
    (hbeyond : d.Beyond t u) (hmatches : e.Matches u) :
    e.seek d t = .error (.unreachable e.display (e.config.maxSteps.toNat + 1)) := by
  have hfires : e.Fires u.minute := hmatches
  rw [hu.eq_start] at hbeyond
  obtain ⟨m, hbase⟩ := exists_base? (fires_iff.mp hfires).1 hbeyond
  have hahead := (leads_base_iff hbase u.minute).mpr hbeyond
  have hsettles := e.walk_settles d e.config.maxSteps.toNat m
  unfold seek search
  rw [hbase]
  dsimp only
  cases houtcome : (e.walk d e.config.maxSteps.toNat m).outcome with
  | found trigger =>
    have hlt := two_mul_decoys_lt hbase hdecoys houtcome
    omega
  | unreachable steps =>
    rw [houtcome] at hsettles
    obtain ⟨hle, hnone⟩ := hsettles
    have hcut : ¬ steps ≤ e.config.maxSteps.toNat := fun hsteps => hnone hsteps _ hfires hahead
    obtain rfl : steps = e.config.maxSteps.toNat + 1 := by omega
    rfl
  | outOfRange reference =>
    rw [houtcome] at hsettles
    exact hsettles.elim

theorem decoys_of_seek {expression : String} {steps : Nat}
    (h : e.seek d t = .error (.unreachable expression steps)) :
    (∀ u : Instant, u.Aligned → d.Beyond t u → ¬ e.Matches u) ∨
      steps = e.config.maxSteps.toNat + 1 ∧
        ∃ decoys, e.config.maxSteps.toNat ≤ 1213 + 2 * decoys.length ∧ e.Decoys d t decoys := by
  unfold seek search at h
  cases hbase : base? d t with
  | none =>
    rw [hbase] at h
    cases h
  | some m =>
    rw [hbase] at h
    have hsettles := e.walk_settles d e.config.maxSteps.toNat m
    dsimp only at h
    generalize houtcome : (e.walk d e.config.maxSteps.toNat m).outcome = outcome at h hsettles
    cases outcome with
    | found trigger => cases h
    | outOfRange reference => exact hsettles.elim
    | unreachable taken =>
      cases h
      obtain ⟨hle, hnone⟩ := hsettles
      by_cases hsteps : steps ≤ e.config.maxSteps.toNat
      · left
        intro u hu hbeyond hmatches
        rw [hu.eq_start] at hbeyond
        exact hnone hsteps u.minute hmatches ((leads_base_iff hbase u.minute).mpr hbeyond)
      · right
        obtain rfl : steps = e.config.maxSteps.toNat + 1 := by omega
        have hlength := walk_steps_le houtcome
        refine ⟨rfl, _, ?_, rejected_decoys hbase e.config.maxSteps.toNat⟩
        omega

/-- Under the default limit no trigger is hidden but by many decoys, and some number of decoys hides
every trigger. -/
theorem seek_default (e : Entry) (d : Direction) (t : Instant) (hconfig : e.config = {}) :
    (∀ expression steps, e.seek d t = .error (.unreachable expression steps) →
      (∀ u : Instant, u.Aligned → d.Beyond t u → ¬ e.Matches u) ∨
        steps = 5001 ∧ ∃ decoys, 1894 ≤ decoys.length ∧ e.Decoys d t decoys) ∧
    ∀ decoys, e.Decoys d t decoys → 2500 ≤ decoys.length →
      ∀ u : Instant, u.Aligned → d.Beyond t u → e.Matches u →
        e.seek d t = .error (.unreachable e.display 5001) := by
  have hlimit : e.config.maxSteps.toNat = 5000 := by
    rw [hconfig]
    rfl
  constructor
  · intro expression steps h
    rcases decoys_of_seek h with hnone | ⟨hsteps, decoys, hlength, hdecoys⟩
    · exact .inl hnone
    · exact .inr ⟨by omega, decoys, by omega, hdecoys⟩
  · intro decoys hdecoys hlength u hu hbeyond hmatches
    have hseek := seek_of_decoys hdecoys (by omega) hu hbeyond hmatches
    rwa [hlimit] at hseek

/-- The days leave a remainder of 1, 2 or 5 by seven. In these months they fall on a Saturday in 2000
and in 2098, but in no other of the years. -/
def sparse : Entry where
  minutes := ⟨"0", [0], rfl⟩
  hours := ⟨"0", [0], rfl⟩
  days := ⟨"1/7,2/7,5/7", [1, 2, 5, 8, 9, 12, 15, 16, 19, 22, 23, 26, 29, 30], by rfl⟩
  months := ⟨"2-4,7,11", [2, 3, 4, 7, 11], rfl⟩
  weekdays := ⟨"6", [6], rfl⟩
  years := ⟨"2000/98,2001/14,2004/14,2007/14,2009/28,2010/28,2012/14,2027/28",
    [2000, 2001, 2004, 2007, 2009, 2010, 2012, 2015, 2018, 2021, 2026, 2027, 2029, 2032, 2035,
      2037, 2038, 2040, 2043, 2046, 2049, 2054, 2055, 2057, 2060, 2063, 2065, 2066, 2068, 2071,
      2074, 2077, 2082, 2083, 2085, 2088, 2091, 2093, 2094, 2096, 2098, 2099], by rfl⟩

theorem sparse_months {year : Nat} (hyear : year ∈ sparse.years) (hfirst : year ≠ 2000)
    (hlast : year ≠ 2098) {month : Nat} (hmonth : month ∈ sparse.months) {r : Nat}
    (hr : r ∈ [1, 2, 5]) :
    (Date.daysBeforeYear year + Date.daysBefore year month + r) % 7 ≠ 6 := by
  have h : ∀ year ∈ sparse.years.values, year ≠ 2000 → year ≠ 2098 →
      ∀ month ∈ sparse.months.values, ∀ r : Nat, r ∈ [1, 2, 5] →
        (Date.daysBeforeYear year + Date.daysBefore year month + r) % 7 ≠ 6 := by
    decide +kernel
  exact h year hyear hfirst hlast month hmonth r hr

theorem sparse_weekday (hm : sparse.Admits m) (hfirst : m.date.year ≠ 2000)
    (hlast : m.date.year ≠ 2098) : m.date.weekday ∉ sparse.weekdays := by
  have hdays : ∀ day ∈ sparse.days.values, day % 7 ∈ [1, 2, 5] := by decide
  have hnonneg := hm.year_nonneg
  have hcast : (m.date.year.toNat : Int) = m.date.year := Int.toNat_of_nonneg hnonneg
  have hne := sparse_months hm.year_mem (by omega) (by omega) hm.month_mem
    (hdays _ hm.day_mem)
  rw [hcast] at hne
  have hordinal : m.date.ordinal = Date.daysBefore m.date.year m.date.month + m.date.day := rfl
  have hweekday : m.date.weekday ≠ 6 := by
    rw [Date.weekday, Date.dayNumber_eq, hordinal]
    omega
  exact fun hmem => hweekday (List.mem_singleton.mp hmem)

theorem sparse_fires_year (hm : sparse.Fires m) : m.date.year = 2000 ∨ m.date.year = 2098 := by
  obtain ⟨hadmits, hweekday⟩ := fires_iff.mp hm
  by_cases hfirst : m.date.year = 2000
  · exact .inl hfirst
  · by_cases hlast : m.date.year = 2098
    · exact .inr hlast
    · exact absurd hweekday (sparse_weekday hadmits hfirst hlast)

def sparseMonth (year month : Nat) : List Date :=
  sparse.days.values.filterMap fun day => Date.ofParts? year month day

def sparseYear (year : Nat) : List Date := sparse.months.values.flatMap (sparseMonth year)

def sparseDates : List Date :=
  (sparse.years.values.filter fun year => 2000 < year ∧ year < 2098).flatMap sparseYear

theorem mem_sparseMonth {year month : Nat} {date : Date} (h : date ∈ sparseMonth year month) :
    date.year = year ∧ date.month = month ∧ date.day ∈ sparse.days := by
  obtain ⟨day, hmem, hdate⟩ := List.mem_filterMap.mp h
  obtain ⟨hyear, hmonth, rfl⟩ := Date.ofParts?_eq_some_iff.mp hdate
  exact ⟨hyear, hmonth, hmem⟩

theorem mem_sparseYear {year : Nat} {date : Date} (h : date ∈ sparseYear year) :
    date.year = year ∧ date.month ∈ sparse.months ∧ date.day ∈ sparse.days := by
  obtain ⟨month, hmem, hdate⟩ := List.mem_flatMap.mp h
  obtain ⟨hyear, rfl, hday⟩ := mem_sparseMonth hdate
  exact ⟨hyear, hmem, hday⟩

theorem sparseMonth_nodup (year month : Nat) : (sparseMonth year month).Nodup := by
  have hdays : sparse.days.values.Pairwise (· ≠ ·) := by decide
  refine hdays.filterMap _ fun day day' hne date hdate date' hdate' => ?_
  rintro rfl
  obtain ⟨-, -, hday⟩ := Date.ofParts?_eq_some_iff.mp hdate
  obtain ⟨-, -, hday'⟩ := Date.ofParts?_eq_some_iff.mp hdate'
  exact hne (hday.symm.trans hday')

theorem sparseYear_nodup (year : Nat) : (sparseYear year).Nodup := by
  have hmonths : sparse.months.values.Pairwise (· ≠ ·) := by decide
  refine List.pairwise_flatMap.mpr ⟨fun month _ => sparseMonth_nodup year month, ?_⟩
  refine hmonths.imp fun hne date hdate date' hdate' => ?_
  rintro rfl
  exact hne ((mem_sparseMonth hdate).2.1.symm.trans (mem_sparseMonth hdate').2.1)

theorem sparseDates_nodup : sparseDates.Nodup := by
  have hyears : sparse.years.values.Pairwise (· ≠ ·) := by decide
  refine List.pairwise_flatMap.mpr ⟨fun year _ => sparseYear_nodup year, ?_⟩
  refine (hyears.filter _).imp fun hne date hdate date' hdate' => ?_
  rintro rfl
  have hyear := (mem_sparseYear hdate).1
  have hyear' := (mem_sparseYear hdate').1
  omega

theorem length_sparseDates : 2500 ≤ sparseDates.length := by decide +kernel

theorem sparse_admits {date : Date} (h : date ∈ sparseDates) :
    sparse.Admits date.midnight ∧ 2000 < date.year ∧ date.year < 2098 := by
  obtain ⟨year, hyears, hdate⟩ := List.mem_flatMap.mp h
  obtain ⟨hallowed, hbounds⟩ := List.mem_filter.mp hyears
  obtain ⟨hyear, hmonth, hday⟩ := mem_sparseYear hdate
  have hbounds := of_decide_eq_true hbounds
  refine ⟨⟨List.mem_singleton_self 0, List.mem_singleton_self 0, hday, hmonth, ?_, ?_⟩, ?_, ?_⟩
  · change 0 ≤ date.year
    omega
  · change date.year.toNat ∈ sparse.years.values
    rwa [hyear, Int.toNat_natCast]
  · omega
  · omega

def newYear2001 : Instant := (Date.midnight ⟨2001, 1, 1, by decide⟩).start

def newYear2098 : Instant := (Date.midnight ⟨2098, 1, 1, by decide⟩).start

theorem sparse_decoys
    (hbeyond : ∀ u : Minute, sparse.Admits u → 2000 < u.date.year → u.date.year < 2098 →
      d.Beyond t u.start)
    (hshort : ∀ u v : Minute, sparse.Fires v → 2000 < u.date.year → u.date.year < 2098 →
      d.Beyond t v.start → d.Beyond u.start v.start) :
    sparse.Decoys d t (sparseDates.map Date.midnight) := by
  have hdecoy : ∀ m ∈ sparseDates.map Date.midnight,
      sparse.Admits m ∧ 2000 < m.date.year ∧ m.date.year < 2098 := by
    intro m hm
    obtain ⟨date, hdate, rfl⟩ := List.mem_map.mp hm
    exact sparse_admits hdate
  constructor
  · rw [List.map_map]
    exact (List.map_id sparseDates).symm ▸ sparseDates_nodup
  · intro m hm
    exact (hdecoy m hm).1
  · intro m hm
    obtain ⟨hadmits, hfirst, hlast⟩ := hdecoy m hm
    exact sparse_weekday hadmits (by omega) (by omega)
  · intro m hm
    obtain ⟨hadmits, hfirst, hlast⟩ := hdecoy m hm
    exact hbeyond m hadmits hfirst hlast
  · intro m hm u hu hbeyond hmatches
    obtain ⟨-, hfirst, hlast⟩ := hdecoy m hm
    rw [hu.eq_start] at hbeyond ⊢
    exact hshort m u.minute hmatches hfirst hlast hbeyond

theorem sparse_decoys_forward :
    sparse.Decoys .forward newYear2001 (sparseDates.map Date.midnight) := by
  apply sparse_decoys
  · intro u hu hfirst hlast
    have hmonths : ∀ month ∈ sparse.months.values, 2 ≤ month := by decide
    have hmonth := hmonths _ hu.month_mem
    have hday := u.date.day_bounds
    change newYear2001 < u.start
    rw [Instant.lt_start_iff]
    change (((2001 : Int) * 12 + 1) * 32 + 1) * 1440 + (0 * 60 + 0) < u.key
    simp only [Minute.key, Date.key, YearMonth.index, Date.yearMonth]
    omega
  · intro u v hv hfirst hlast hbeyond
    have hyear : 2001 ≤ v.date.year :=
      Minute.year_le_of_key_le (Int.le_of_lt (Instant.lt_start_iff.mp hbeyond))
    have hlt : u.date.year < v.date.year := by
      rcases sparse_fires_year hv with h | h <;> omega
    exact Instant.start_lt_start_iff.mpr (Minute.key_lt_of_year_lt hlt)

theorem sparse_decoys_backward :
    sparse.Decoys .backward newYear2098 (sparseDates.map Date.midnight) := by
  apply sparse_decoys
  · intro u hu hfirst hlast
    exact Instant.start_lt_start_iff.mpr (Minute.key_lt_of_year_lt hlast)
  · intro u v hv hfirst hlast hbeyond
    have hkey : v.key < newYear2098.minute.key := Instant.start_lt_start_iff.mp hbeyond
    change v.key < (((2098 : Int) * 12 + 1) * 32 + 1) * 1440 + (0 * 60 + 0) at hkey
    have hmonth := v.date.inYear
    have hday := v.date.day_bounds
    have hlt : v.date.year < u.date.year := by
      rcases sparse_fires_year hv with h | h
      · omega
      · simp only [Minute.key, Date.key, YearMonth.index, YearMonth.InYear, Date.yearMonth] at *
        omega
    exact Instant.start_lt_start_iff.mpr (Minute.key_lt_of_year_lt hlt)

def february2098 : Instant := (Date.midnight ⟨2098, 2, 1, by decide⟩).start

def july2000 : Instant := (Date.midnight ⟨2000, 7, 29, by decide⟩).start

theorem sparse_february : february2098.Aligned ∧ newYear2001 < february2098 ∧
    sparse.Matches february2098 :=
  ⟨Instant.aligned_start _, by decide +kernel, by decide +kernel⟩

theorem sparse_july : july2000.Aligned ∧ july2000 < newYear2098 ∧ sparse.Matches july2000 :=
  ⟨Instant.aligned_start _, by decide +kernel, by decide +kernel⟩

theorem length_sparse_decoys : 2500 ≤ (sparseDates.map Date.midnight).length := by
  rw [List.length_map]
  exact length_sparseDates

theorem seek_sparse :
    sparse.config = {} ∧ sparse.seek .forward newYear2001 = .error (.unreachable sparse.display 5001) ∧
      ∃ decoys, 1894 ≤ decoys.length ∧ sparse.Decoys .forward newYear2001 decoys := by
  obtain ⟨hhidden, hhides⟩ := seek_default sparse .forward newYear2001 rfl
  obtain ⟨haligned, hbeyond, hmatches⟩ := sparse_february
  have hseek := hhides _ sparse_decoys_forward length_sparse_decoys _ haligned hbeyond hmatches
  rcases hhidden _ _ hseek with hnone | ⟨-, hdecoys⟩
  · exact absurd hmatches (hnone _ haligned hbeyond)
  · exact ⟨rfl, hseek, hdecoys⟩

/-- From the beginning of 2001 the limit hides the Saturdays of 2098, and from the beginning of 2098
it hides those of 2000. -/
theorem sparse_hidden :
    sparse.config = {} ∧
    (sparse.nextAfter newYear2001 = .error (.unreachable sparse.display 5001) ∧
      february2098.Aligned ∧ newYear2001 < february2098 ∧ sparse.Matches february2098) ∧
    sparse.prevBefore newYear2098 = .error (.unreachable sparse.display 5001) ∧
      july2000.Aligned ∧ july2000 < newYear2098 ∧ sparse.Matches july2000 := by
  have hlimit : sparse.config.maxSteps.toNat ≤ 2 * (sparseDates.map Date.midnight).length :=
    Nat.mul_le_mul_left 2 length_sparse_decoys
  obtain ⟨haligned, hbeyond, hmatches⟩ := sparse_february
  obtain ⟨haligned', hbeyond', hmatches'⟩ := sparse_july
  refine ⟨rfl, ⟨?_, haligned, hbeyond, hmatches⟩, ?_, haligned', hbeyond', hmatches'⟩
  · exact seek_of_decoys sparse_decoys_forward hlimit haligned hbeyond hmatches
  · exact seek_of_decoys sparse_decoys_backward hlimit haligned' hbeyond' hmatches'

end Entry

end CronCalendar
