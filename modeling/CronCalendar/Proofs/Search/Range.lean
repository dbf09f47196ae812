import CronCalendar.Proofs.Search.Nearest
import CronCalendar.Proofs.Search.Words

/-!
# No search leaves the range of words

The years that a search computes with lie within a few years of the representable ones, because it
leaves them only on its way out: a position beyond year 2100, or before year 2000 on the way back,
ends the search when it is checked. Months are between 1 and 12 and days at least 1 wherever one is
taken off. So every move is the same in words as in numbers, and since the number of moves is
bounded for all entries, the counter stays a word whatever the limit. What is left to fail is the
step from the reference to the first minute beyond it.
-/

namespace CronCalendar.Search

namespace Words

theorem unsigned_eq {n : Int} {m : Nat} (h : n = m) (hlt : m < 2 ^ 32) : unsigned n = .ok m := by
  have hrange : 0 ≤ n ∧ n < 2 ^ 32 := by omega
  rw [unsigned, if_pos hrange, h, Int.toNat_natCast]

theorem unsigned_succ {n : Nat} (h : n + 1 < 2 ^ 32) : unsigned (n + 1) = .ok (n + 1) :=
  unsigned_eq rfl h

theorem unsigned_pred {n : Nat} (hpos : 0 < n) (h : n < 2 ^ 32) : unsigned (n - 1) = .ok (n - 1) :=
  unsigned_eq (by omega) (by omega)

def Near (k : Nat) (year : Int) : Prop := minYear - k ≤ year ∧ year ≤ maxYear + k

theorem Near.mono {k l : Nat} {year : Int} (h : Near k year) (hkl : k ≤ l) : Near l year := by
  unfold Near at *
  omega

theorem Near.succ {k : Nat} {year : Int} (h : Near k year) : Near (k + 1) (year + 1) := by
  unfold Near at *
  omega

theorem Near.pred {k : Nat} {year : Int} (h : Near k year) : Near (k + 1) (year - 1) := by
  unfold Near at *
  omega

theorem near_date (d : Date) : Near 0 d.year := by
  have hyear := d.valid.1
  unfold Near
  omega

theorem near_of_mem {e : Entry} {year : Nat} (h : year ∈ e.years) : Near 0 year := by
  have hbounds := Field.mem_bounds h
  simp only [Kind.least, Kind.greatest] at hbounds
  simp only [Near, minYear, maxYear]
  omega

theorem signed_of_near {year : Int} (h : Near 4 year) : signed year = .ok year := by
  simp only [Near, minYear, maxYear] at h
  have hrange : -2 ^ 31 ≤ year ∧ year < 2 ^ 31 := by omega
  exact if_pos hrange

theorem unsigned?_of_near {year : Int} (h : Near 3 year) :
    unsigned? year = if year < 0 then none else some year.toNat := by
  simp only [Near, minYear, maxYear] at h
  split
  · next hneg =>
    have hrange : ¬ (0 ≤ year ∧ year < 2 ^ 32) := by omega
    rw [unsigned?, unsigned, if_neg hrange]
    rfl
  · have hrange : 0 ≤ year ∧ year < 2 ^ 32 := by omega
    rw [unsigned?, unsigned, if_pos hrange]
    rfl

theorem following_eq {ym : YearMonth} (h : Near 3 ym.year) (hmonth : ym.InYear) :
    following ym = .ok ym.following := by
  unfold YearMonth.InYear at hmonth
  unfold following YearMonth.following
  split
  · exact bind_eq_ok_iff.mpr ⟨_, signed_of_near h.succ, rfl⟩
  · exact bind_eq_ok_iff.mpr ⟨_, unsigned_succ (by omega), rfl⟩

theorem preceding_eq {ym : YearMonth} (h : Near 3 ym.year) (hmonth : ym.InYear) :
    preceding ym = .ok ym.preceding := by
  unfold YearMonth.InYear at hmonth
  unfold preceding YearMonth.preceding
  split
  · exact bind_eq_ok_iff.mpr ⟨_, signed_of_near h.pred, rfl⟩
  · exact bind_eq_ok_iff.mpr ⟨_, unsigned_pred (by omega) (by omega), rfl⟩

theorem near_following {k : Nat} {ym : YearMonth} (h : Near k ym.year) :
    Near (k + 1) ym.following.year := by
  unfold YearMonth.following
  split
  · exact h.succ
  · exact h.mono (Nat.le_succ k)

theorem near_preceding {k : Nat} {ym : YearMonth} (h : Near k ym.year) :
    Near (k + 1) ym.preceding.year := by
  unfold YearMonth.preceding
  split
  · exact h.pred
  · exact h.mono (Nat.le_succ k)

variable {σ : Type} {e : Entry}

def next? : Move σ → Option σ
  | .go next | .reject _ next => some next
  | _ => none

/-- From the sound positions where `Within` holds, a move is the same in words as in numbers of any
size, and it leads to such positions again. -/
structure Agrees (c : Course σ) (move : σ → Move σ) (inWords : σ → Except Trap (Move σ))
    (Within : σ → Prop) : Prop where
  move_eq : ∀ p, c.Sound p → Within p → inWords p = .ok (move p)
  within : ∀ p, c.Sound p → Within p → ∀ q, next? (move p) = some q → Within q

theorem walk_eq {c : Course σ} {move : σ → Move σ} {inWords : σ → Except Trap (Move σ)}
    {Within : σ → Prop} (hc : c.Governs e move) (ha : Agrees c move inWords Within)
    (used left : Nat) {p : σ} (hp : c.Sound p) (hwithin : Within p)
    (hcount : used + (c.slack p + 2 * c.days p) + 1 < 2 ^ 32) :
    walk inWords used left p = .ok (Search.walk move used left p) := by
  induction left generalizing used p with
  | zero => exact bind_eq_ok_iff.mpr ⟨_, unsigned_succ (by omega), rfl⟩
  | succ left ih =>
    have hlaw := hc p hp
    have hnext := ha.within p hp hwithin
    refine bind_eq_ok_iff.mpr ⟨_, unsigned_succ (by omega), ?_⟩
    refine bind_eq_ok_iff.mpr ⟨_, ha.move_eq p hp hwithin, ?_⟩
    generalize hmove : move p = step at hlaw hnext
    cases hlaw with
    | @go q h =>
      have hslack := h.slack
      have hdays := h.days
      simp only [Search.walk, hmove]
      exact ih (used + 1) h.sound (hnext q rfl) (by omega)
    | @reject m q h =>
      -- the slack that a retry may bring is less than what its day was counted for
      have hslack := h.slack
      have hdays := h.days
      simp only [Search.walk, hmove]
      exact bind_eq_ok_iff.mpr ⟨_, ih (used + 1) h.sound (hnext q rfl) (by omega), rfl⟩
    | found h hweekday =>
      simp only [Search.walk, hmove]
      rfl
    | exhausted h =>
      simp only [Search.walk, hmove]
      rfl

theorem arrive_eq {retry : Minute → σ} {s : Slot} {m : Minute} (h : s.minute? = some m) :
    arrive e retry s = .ok (s.arrive e retry) := by
  unfold arrive Slot.arrive
  rw [h]
  rfl

theorem next?_arrive {retry : Minute → σ} {s : Slot} {q : σ}
    (h : next? (s.arrive e retry) = some q) : ∃ m, q = retry m := by
  unfold Slot.arrive at h
  split at h
  · next m hm =>
    split at h
    · cases h
    · exact ⟨m, (Option.some.inj h).symm⟩
  · cases h

namespace Forward

open Search.Forward (Position opening)

theorem clock?_eq (m : Minute) :
    clock? e m.hour m.minute = .ok (Search.Forward.clock? e m.hour m.minute) := by
  have hhour := m.hour_lt
  unfold clock? Search.Forward.clock?
  cases e.minutes.next? m.minute with
  | some minute => rfl
  | none => exact bind_eq_ok_iff.mpr ⟨_, unsigned_succ (by omega), rfl⟩

theorem align_eq {s : Slot} (h : Near 3 s.yearMonth.year) :
    align e s = .ok (Search.Forward.align e s) := by
  unfold align Search.Forward.align
  cases e.months.next? s.yearMonth.month with
  | some month => rfl
  | none => exact bind_eq_ok_iff.mpr ⟨_, signed_of_near h.succ, rfl⟩

theorem enter_eq {s : Slot} (h : Near 3 s.yearMonth.year) :
    enter e s = .ok (Search.Forward.enter e s) := by
  unfold enter Search.Forward.enter
  split
  · exact bind_eq_ok_iff.mpr ⟨_, align_eq h, rfl⟩
  · rfl

theorem seekDay_eq {ym : YearMonth} {day hour minute : Nat} (h : Near 2 ym.year)
    (hmonth : ym.InYear) :
    seekDay e ym day hour minute = .ok (Search.Forward.seekDay e ym day hour minute) := by
  have h3 : Near 3 ym.year := h.mono (by omega)
  unfold seekDay Search.Forward.seekDay
  cases e.days.next? day with
  | some d =>
    dsimp only
    split <;> exact enter_eq h3
  | none =>
    exact bind_eq_ok_iff.mpr ⟨_, following_eq h3 hmonth, enter_eq (near_following h)⟩

theorem start_eq (m : Minute) : start e m = .ok (Search.Forward.start e m) := by
  have hyear : Near 2 m.date.yearMonth.year := (near_date m.date).mono (by omega)
  have hday := m.date.day_le
  unfold start Search.Forward.start
  refine bind_eq_ok_iff.mpr ⟨_, clock?_eq m, ?_⟩
  cases Search.Forward.clock? e m.hour m.minute with
  | some clock => exact seekDay_eq hyear m.date.inYear
  | none =>
    exact bind_eq_ok_iff.mpr ⟨_, unsigned_succ (by omega), seekDay_eq hyear m.date.inYear⟩

theorem monthAfter_eq {ym : YearMonth} (h : Near 3 ym.year) (hmonth : ym.InYear) :
    monthAfter e ym = .ok (Search.Forward.monthAfter e ym) := by
  unfold YearMonth.InYear at hmonth
  unfold monthAfter Search.Forward.monthAfter
  refine bind_eq_ok_iff.mpr ⟨_, unsigned_succ (by omega), ?_⟩
  cases e.months.next? (ym.month + 1) with
  | some month => rfl
  | none => exact bind_eq_ok_iff.mpr ⟨_, signed_of_near h.succ, rfl⟩

theorem settle_eq {s : Slot} (h : s.Allowed e) (hyear : s.InYears e) :
    settle e s = .ok (Search.Forward.settle e s) := by
  obtain ⟨year, hmem, heq⟩ := id hyear
  have hnear : Near 3 s.yearMonth.year := heq ▸ (near_of_mem hmem).mono (by omega)
  unfold settle Search.Forward.settle
  split
  · next hfits =>
    obtain ⟨m, hminute, -⟩ := h.exists_minute? hyear hfits
    exact arrive_eq hminute
  · exact bind_eq_ok_iff.mpr ⟨_, monthAfter_eq hnear h.inYear, rfl⟩

theorem near_align {k : Nat} {s : Slot} (h : Near k s.yearMonth.year) :
    Near (k + 1) (Search.Forward.align e s).yearMonth.year := by
  unfold Search.Forward.align
  cases e.months.next? s.yearMonth.month with
  | some month =>
    dsimp only
    split <;> exact h.mono (Nat.le_succ k)
  | none => exact h.succ

def Within : Position → Prop
  | .roll ym => Near 1 ym.year
  | .check s => Near 3 s.yearMonth.year
  | .retry _ => True

theorem within_enter {s : Slot} (h : Near 1 s.yearMonth.year) :
    Within (Search.Forward.enter e s) := by
  unfold Search.Forward.enter
  split
  · exact (near_align h).mono (by omega)
  · exact h

theorem within_seekDay {ym : YearMonth} {day hour minute : Nat} (h : Near 0 ym.year) :
    Within (Search.Forward.seekDay e ym day hour minute) := by
  have h1 : Near 1 ym.year := h.mono (by omega)
  unfold Search.Forward.seekDay
  cases e.days.next? day with
  | some d =>
    dsimp only
    split <;> exact within_enter h1
  | none => exact within_enter (near_following h)

theorem within_start (m : Minute) : Within (Search.Forward.start e m) := by
  unfold Search.Forward.start
  split <;> exact within_seekDay (near_date m.date)

theorem within_settle {s : Slot} {year : Nat} (hmem : year ∈ e.years)
    (hyear : s.yearMonth.year = year) {q : Position}
    (h : next? (Search.Forward.settle e s) = some q) : Within q := by
  unfold Search.Forward.settle at h
  split at h
  · obtain ⟨m, rfl⟩ := next?_arrive h
    trivial
  · cases h
    have hnear : Near 0 s.yearMonth.year := hyear ▸ near_of_mem hmem
    change Near 3 (Search.Forward.monthAfter e s.yearMonth).year
    unfold Search.Forward.monthAfter
    split
    · exact hnear.mono (by omega)
    · exact hnear.succ.mono (by omega)

theorem move_check_eq {s : Slot} (h : s.Allowed e) (hwithin : Near 3 s.yearMonth.year) :
    move e (.check s) = .ok (Search.Forward.move e (.check s)) := by
  have hyear : (unsigned? s.yearMonth.year).getD 0 = s.yearMonth.year.toNat := by
    rw [unsigned?_of_near hwithin]
    split
    · next hneg => exact (Int.toNat_of_nonpos (Int.le_of_lt hneg)).symm
    · rfl
  simp only [move, Search.Forward.move_check, hyear]
  cases hnext : e.years.next? s.yearMonth.year.toNat with
  | none => rfl
  | some year =>
    obtain ⟨hmem, hle, -⟩ := Field.next?_eq_some_iff.mp hnext
    refine bind_eq_ok_iff.mpr ⟨_, signed_of_near ((near_of_mem hmem).mono (by omega)), ?_⟩
    dsimp only
    split
    · exact settle_eq (Search.Forward.opening_allowed e.months.first_mem) ⟨year, hmem, rfl⟩
    · exact settle_eq h ⟨year, hmem, by omega⟩

theorem within_check {s : Slot} {q : Position}
    (h : next? (Search.Forward.move e (.check s)) = some q) : Within q := by
  rw [Search.Forward.move_check] at h
  split at h
  · cases h
  · next year hnext =>
    obtain ⟨hmem, hle, -⟩ := Field.next?_eq_some_iff.mp hnext
    split at h
    · exact within_settle hmem rfl h
    · exact within_settle hmem (by omega) h

theorem agrees (e : Entry) :
    Agrees (Search.Forward.course e) (Search.Forward.move e) (move e) Within where
  move_eq p hp hwithin := by
    cases p with
    | roll ym =>
      have hfollowing := following_eq (Near.mono hwithin (by omega)) hp.1
      have henter := enter_eq (e := e) (s := opening e ym.following)
        ((near_following hwithin).mono (by omega))
      exact bind_eq_ok_iff.mpr ⟨_, hfollowing, bind_eq_ok_iff.mpr ⟨_, henter, rfl⟩⟩
    | check s => exact move_check_eq hp hwithin
    | retry rejected =>
      obtain ⟨q, hmove, -⟩ := Search.Forward.retry_goes hp
      simp only [move, Search.Forward.move] at hmove ⊢
      cases hdate : rejected.date.succ? with
      | some date => exact bind_eq_ok_iff.mpr ⟨_, start_eq date.midnight, rfl⟩
      | none => simp [hdate] at hmove
  within p hp hwithin q hq := by
    cases p with
    | roll ym =>
      cases hq
      have hfits := Search.Forward.opening_fits (e := e) hp.1 hp.2
      unfold Search.Forward.enter
      rw [if_pos hfits]
      exact near_align (near_following hwithin)
    | check s => exact within_check hq
    | retry rejected =>
      simp only [Search.Forward.move] at hq
      split at hq
      · cases hq
        exact within_start _
      · cases hq

end Forward

namespace Backward

open Search.Backward (Position closing? visit)

theorem clock?_eq (m : Minute) : clock? e m.hour m.minute = Search.Backward.clock? e m.hour m.minute := by
  have hhour := m.hour_lt
  unfold clock? Search.Backward.clock?
  cases e.minutes.prev? m.minute with
  | some minute => rfl
  | none =>
    dsimp only
    split
    · next hzero =>
      rw [hzero]
      rfl
    · next hpos =>
      have hpred : unsigned? (m.hour - 1) = some (m.hour - 1) :=
        congrArg Except.toOption (unsigned_pred (Nat.pos_of_ne_zero hpos) (by omega))
      rw [hpred]
      rfl

theorem align_eq {s : Slot} (h : Near 3 s.yearMonth.year) :
    align e s = .ok (Search.Backward.align e s) := by
  unfold align Search.Backward.align
  cases e.months.prev? s.yearMonth.month with
  | some month => rfl
  | none => exact bind_eq_ok_iff.mpr ⟨_, signed_of_near h.pred, rfl⟩

theorem near_closing {k : Nat} {ym : YearMonth} {s : Slot} (h : Near k ym.year)
    (hs : closing? e ym = some s) : Near k s.yearMonth.year := by
  obtain ⟨day, -, rfl⟩ := Option.map_eq_some_iff.mp hs
  exact h

theorem enter_eq {ym : YearMonth} (h : Near 3 ym.year) :
    enter e ym = .ok (Search.Backward.enter e ym) := by
  unfold enter Search.Backward.enter
  cases hclosing : closing? e ym with
  | some s => exact align_eq (near_closing h hclosing)
  | none => rfl

theorem seekDay_eq {ym : YearMonth} {day hour minute : Nat} (h : Near 2 ym.year)
    (hmonth : ym.InYear) :
    seekDay e ym day hour minute = .ok (Search.Backward.seekDay e ym day hour minute) := by
  have h3 : Near 3 ym.year := h.mono (by omega)
  unfold seekDay Search.Backward.seekDay
  cases e.days.prev? day with
  | some d =>
    dsimp only
    split <;> exact align_eq h3
  | none =>
    exact bind_eq_ok_iff.mpr ⟨_, preceding_eq h3 hmonth, enter_eq (near_preceding h)⟩

theorem start_eq (m : Minute) : start e m = .ok (Search.Backward.start e m) := by
  have hyear : Near 2 m.date.yearMonth.year := (near_date m.date).mono (by omega)
  have hday := m.date.day_bounds
  have hday31 := m.date.day_le
  unfold start Search.Backward.start
  rw [clock?_eq]
  cases Search.Backward.clock? e m.hour m.minute with
  | some clock => exact seekDay_eq hyear m.date.inYear
  | none =>
    exact bind_eq_ok_iff.mpr
      ⟨_, unsigned_pred (by omega) (by omega), seekDay_eq hyear m.date.inYear⟩

theorem monthBefore_eq {ym : YearMonth} (h : Near 3 ym.year) (hmonth : ym.InYear) :
    monthBefore e ym = .ok (Search.Backward.monthBefore e ym) := by
  unfold YearMonth.InYear at hmonth
  unfold monthBefore Search.Backward.monthBefore
  refine bind_eq_ok_iff.mpr ⟨_, unsigned_pred (by omega) (by omega), ?_⟩
  cases e.months.prev? (ym.month - 1) with
  | some month => rfl
  | none => exact bind_eq_ok_iff.mpr ⟨_, signed_of_near h.pred, rfl⟩

theorem settle_eq {ym : YearMonth} {slot? : Option Slot}
    (h : Search.Backward.Sound e (.check ym slot?)) {year : Nat} (hmem : year ∈ e.years)
    (hyear : ym.year = year) :
    settle e ym slot? = .ok (Search.Backward.settle e ym slot?) := by
  have hmonth := Search.Backward.inYear_of_sound h
  have hnear : Near 3 ym.year := hyear ▸ (near_of_mem hmem).mono (by omega)
  cases slot? with
  | some s =>
    obtain ⟨rfl, hallowed, hfits⟩ := h
    obtain ⟨m, hminute, -⟩ := hallowed.exists_minute? ⟨year, hmem, hyear⟩ hfits
    exact arrive_eq hminute
  | none => exact bind_eq_ok_iff.mpr ⟨_, monthBefore_eq hnear hmonth, rfl⟩

def Within : Position → Prop
  | .seek ym => Near 1 ym.year
  | .check ym _ => Near 3 ym.year
  | .retry _ => True

theorem within_align {s : Slot} (h : Near 2 s.yearMonth.year) :
    Within (Search.Backward.align e s) := by
  unfold Search.Backward.align
  cases e.months.prev? s.yearMonth.month with
  | some month =>
    dsimp only
    split <;> exact h.mono (by omega)
  | none => exact h.pred

theorem within_enter {ym : YearMonth} (h : Near 1 ym.year) :
    Within (Search.Backward.enter e ym) := by
  unfold Search.Backward.enter
  cases hclosing : closing? e ym with
  | some s => exact within_align ((near_closing h hclosing).mono (by omega))
  | none => exact h

theorem within_seekDay {ym : YearMonth} {day hour minute : Nat} (h : Near 0 ym.year) :
    Within (Search.Backward.seekDay e ym day hour minute) := by
  have h2 : Near 2 ym.year := h.mono (by omega)
  unfold Search.Backward.seekDay
  cases e.days.prev? day with
  | some d =>
    dsimp only
    split <;> exact within_align h2
  | none => exact within_enter (near_preceding h)

theorem within_start (m : Minute) : Within (Search.Backward.start e m) := by
  unfold Search.Backward.start
  split <;> exact within_seekDay (near_date m.date)

theorem within_settle {ym : YearMonth} {slot? : Option Slot} {year : Nat} (hmem : year ∈ e.years)
    (hyear : ym.year = year) {q : Position}
    (h : next? (Search.Backward.settle e ym slot?) = some q) : Within q := by
  cases slot? with
  | some s =>
    obtain ⟨m, rfl⟩ := next?_arrive h
    trivial
  | none =>
    cases h
    have hnear : Near 0 ym.year := hyear ▸ near_of_mem hmem
    change Near 3 (Search.Backward.monthBefore e ym).year
    unfold Search.Backward.monthBefore
    split
    · exact hnear.mono (by omega)
    · exact hnear.pred.mono (by omega)

theorem visit_sound {year : Int} :
    Search.Backward.Sound e (visit e ⟨year, e.months.last⟩) := by
  have hmonth : YearMonth.month ⟨year, e.months.last⟩ ∈ e.months := e.months.last_mem
  exact (Search.Backward.visit_seeks hmonth).sound

theorem move_check_eq {ym : YearMonth} {slot? : Option Slot}
    (h : Search.Backward.Sound e (.check ym slot?)) (hwithin : Near 3 ym.year) :
    move e (.check ym slot?) = .ok (Search.Backward.move e (.check ym slot?)) := by
  have hyear : (unsigned? ym.year).bind e.years.prev? = Search.Backward.year? e ym.year := by
    rw [unsigned?_of_near hwithin, Search.Backward.year?]
    split <;> rfl
  simp only [move, Search.Backward.move_check, hyear]
  cases hfound : Search.Backward.year? e ym.year with
  | none => rfl
  | some year =>
    obtain ⟨hmem, hle, -⟩ := Search.Backward.year?_eq_some hfound
    refine bind_eq_ok_iff.mpr ⟨_, signed_of_near ((near_of_mem hmem).mono (by omega)), ?_⟩
    dsimp only
    split
    · exact settle_eq visit_sound hmem rfl
    · exact settle_eq h hmem (by omega)

theorem within_check {ym : YearMonth} {slot? : Option Slot} {q : Position}
    (h : next? (Search.Backward.move e (.check ym slot?)) = some q) : Within q := by
  rw [Search.Backward.move_check] at h
  split at h
  · cases h
  · next year hfound =>
    obtain ⟨hmem, hle, -⟩ := Search.Backward.year?_eq_some hfound
    split at h
    · exact within_settle hmem rfl h
    · exact within_settle hmem (by omega) h

theorem agrees (e : Entry) :
    Agrees (Search.Backward.course e) (Search.Backward.move e) (move e) Within where
  move_eq p hp hwithin := by
    cases p with
    | seek ym =>
      have hpreceding := preceding_eq (Near.mono hwithin (by omega)) hp.1
      have henter := enter_eq (e := e) ((near_preceding hwithin).mono (by omega))
      exact bind_eq_ok_iff.mpr ⟨_, hpreceding, bind_eq_ok_iff.mpr ⟨_, henter, rfl⟩⟩
    | check ym slot? => exact move_check_eq hp hwithin
    | retry rejected =>
      obtain ⟨q, hmove, -⟩ := Search.Backward.retry_goes hp
      simp only [move, Search.Backward.move] at hmove ⊢
      cases hdate : rejected.date.pred? with
      | some date => exact bind_eq_ok_iff.mpr ⟨_, start_eq date.lastMinute, rfl⟩
      | none => simp [hdate] at hmove
  within p hp hwithin q hq := by
    cases p with
    | seek ym =>
      cases hq
      unfold Search.Backward.enter
      cases hclosing : closing? e ym.preceding with
      | some s => exact within_align (near_closing (near_preceding hwithin) hclosing)
      | none =>
        have hshort := (Search.Backward.closing?_eq_none (YearMonth.preceding_inYear hp.1) hclosing).1
        have hlength := (YearMonth.length_beside_short hp.1 hp.2).2
        omega
    | check ym slot? => exact within_check hq
    | retry rejected =>
      simp only [Search.Backward.move] at hq
      split at hq
      · cases hq
        exact within_start _
      · cases hq

end Backward

end Words

end CronCalendar.Search

namespace CronCalendar

def Direction.AtEnd : Direction → Instant → Prop
  | .forward, t => t.minute = Date.last.lastMinute
  | .backward, t => t = Date.first.midnight.start

namespace Entry

open Search

variable {e : Entry} {d : Direction} {t reference : Instant}

theorem walkInWords_eq (e : Entry) (d : Direction) {limit : Nat} (m : Minute) :
    e.walkInWords d limit m = .ok (e.walk d limit m) := by
  cases d with
  | forward =>
    have hslack := Forward.slack_le (Forward.start e m)
    have hdays := Forward.days_le (Forward.start e m)
    refine bind_eq_ok_iff.mpr ⟨_, Words.Forward.start_eq m, ?_⟩
    exact Words.walk_eq (Forward.governs e) (Words.Forward.agrees e) 0 limit
      (Forward.start_seeks m).sound (Words.Forward.within_start m)
      (by simp only [Forward.course]; omega)
  | backward =>
    have hslack := Backward.slack_le (Backward.start e m)
    have hdays := Backward.days_le (Backward.start e m)
    refine bind_eq_ok_iff.mpr ⟨_, Words.Backward.start_eq m, ?_⟩
    exact Words.walk_eq (Backward.governs e) (Words.Backward.agrees e) 0 limit
      (Backward.start_seeks m).sound (Words.Backward.within_start m)
      (by simp only [Backward.course]; omega)

theorem base?_eq_none_iff : base? d t = none ↔ d.AtEnd t := by
  cases d with
  | forward => exact Minute.succ?_eq_none_iff
  | backward =>
    have hinside : t.minute.start < t ↔ ¬ t.Aligned := by
      simp [Instant.start_lt_iff]
    by_cases haligned : t.Aligned
    · rw [base?, if_neg (by simp [hinside, haligned]), Minute.pred?_eq_none_iff]
      constructor
      · intro hminute
        rw [haligned.eq_start, hminute]
        rfl
      · intro hend
        have hend : t = Date.first.midnight.start := hend
        rw [hend]
        rfl
    · rw [base?, if_pos (hinside.mpr haligned)]
      simp only [reduceCtorEq, false_iff]
      intro hend
      have hend : t = Date.first.midnight.start := hend
      exact haligned (hend ▸ Instant.aligned_start _)

theorem seek_eq_outOfRange_iff :
    e.seek d t = .error (.outOfRange reference) ↔ reference = t ∧ d.AtEnd t := by
  rw [← base?_eq_none_iff]
  constructor
  · exact reference_of_seek
  · rintro ⟨rfl, hbase⟩
    rw [seek, search, hbase]
    rfl

/-- In words of 32 bits every search comes to the same report as in numbers of any size, with no
trap on its way. The only references that are out of range are those in the last minute, on the way
forward, and the very first instant, on the way back. -/
theorem searchInWords_eq (e : Entry) (d : Direction) (t : Instant) :
    e.searchInWords d t = .ok (e.search d t) ∧
      ∀ reference, e.seek d t = .error (.outOfRange reference) ↔ reference = t ∧ d.AtEnd t := by
  refine ⟨?_, fun reference => seek_eq_outOfRange_iff⟩
  unfold searchInWords search
  cases base? d t with
  | none => rfl
  | some m => exact e.walkInWords_eq d m

end Entry

end CronCalendar
