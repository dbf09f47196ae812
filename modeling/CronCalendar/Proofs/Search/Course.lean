import CronCalendar.Search.Walk
import CronCalendar.Proofs.Calendar.Order
import CronCalendar.Proofs.Field.Values

/-!
# Courses of a search

A course says what the positions of a walk stand for: which minutes lie ahead of a position, in
which direction they are met, and how much the walk can still do. A move is lawful when it loses no
minute that the entry admits: it goes on with the same minutes ahead, it rejects the nearest of them
and leaves its day, it finds the nearest of them, or it stops where none is left. What lawful moves
do one by one, `walk` does as a whole: `LawfulWalk` puts them together, and by induction on it the
theorems of this module say what they come to, in the outcome, in the candidates rejected on the way
and in the number of steps.
-/

namespace CronCalendar

namespace Entry

/-- Every field but the day of the week allows the minute. -/
structure Admits (e : Entry) (m : Minute) : Prop where
  minute_mem : m.minute ∈ e.minutes
  hour_mem : m.hour ∈ e.hours
  day_mem : m.date.day ∈ e.days
  month_mem : m.date.month ∈ e.months
  year_nonneg : 0 ≤ m.date.year
  year_mem : m.date.year.toNat ∈ e.years

variable {e : Entry} {m : Minute}

theorem fires_iff : e.Fires m ↔ e.Admits m ∧ m.date.weekday ∈ e.weekdays := by
  constructor
  · rintro ⟨hminute, hhour, hday, hmonth, hweekday, hnonneg, hyear⟩
    exact ⟨⟨hminute, hhour, hday, hmonth, hnonneg, hyear⟩, hweekday⟩
  · rintro ⟨h, hweekday⟩
    exact ⟨h.minute_mem, h.hour_mem, h.day_mem, h.month_mem, hweekday, h.year_nonneg, h.year_mem⟩

theorem Admits.year_bounds (h : e.Admits m) : 2000 ≤ m.date.year ∧ m.date.year ≤ 2100 := by
  have hnonneg := h.year_nonneg
  have hyear := Field.mem_bounds h.year_mem
  simp only [Kind.least, Kind.greatest] at hyear
  omega

end Entry

def Direction.Leads : Direction → Minute → Minute → Prop
  | .forward, a, b => a.key ≤ b.key
  | .backward, a, b => b.key ≤ a.key

def Direction.PastYears (e : Entry) (year : Int) : Direction → Prop
  | .forward => ∀ y ∈ e.years, (y : Int) < year
  | .backward => ∀ y ∈ e.years, year < (y : Int)

namespace Search

/-- What the positions of a walk stand for. `slack` is what the walk may still spend on moves that
reject nothing, and `days` bounds the days that it may still reject. -/
structure Course (σ : Type) where
  direction : Direction
  Sound : σ → Prop
  Ahead : σ → Minute → Prop
  slack : σ → Nat
  days : σ → Nat

variable {σ : Type} {e : Entry} {move : σ → Move σ} {c : Course σ} {p q : σ} {m : Minute}

def taken (move : σ → Move σ) : Nat → σ → Nat
  | 0, _ => 0
  | left + 1, position =>
    match move position with
    | .go next | .reject _ next => taken move left next + 1
    | .found _ | .exhausted _ | .astray | .edge _ => 1

/-- The candidates that the moves of a walk turn away, in the order of the moves. -/
def turnedAway (move : σ → Move σ) : Nat → σ → List Minute
  | 0, _ => []
  | left + 1, position =>
    match move position with
    | .go next => turnedAway move left next
    | .reject candidate next => candidate :: turnedAway move left next
    | .found _ | .exhausted _ | .astray | .edge _ => []

namespace Course

structure Nearest (c : Course σ) (e : Entry) (p : σ) (m : Minute) : Prop where
  admits : e.Admits m
  ahead : c.Ahead p m
  leads : ∀ u, e.Admits u → c.Ahead p u → c.direction.Leads m u

structure Goes (c : Course σ) (e : Entry) (p q : σ) : Prop where
  sound : c.Sound q
  ahead : ∀ u, e.Admits u → (c.Ahead q u ↔ c.Ahead p u)
  slack : c.slack q < c.slack p
  days : c.days q ≤ c.days p

structure Rejects (c : Course σ) (e : Entry) (move : σ → Move σ) (p : σ) (m : Minute) (q : σ) :
    Prop where
  nearest : c.Nearest e p m
  weekday : m.date.weekday ∉ e.weekdays
  sound : c.Sound q
  ahead : ∀ u, e.Admits u → (c.Ahead q u ↔ c.Ahead p u ∧ u.date ≠ m.date)
  slack : c.slack q ≤ c.slack p + 1
  days : c.days q < c.days p
  resumes : ∃ next, move q = .go next

/-- No lawful move goes astray or over the edge of the calendar. -/
inductive Lawful (c : Course σ) (e : Entry) (move : σ → Move σ) (p : σ) : Move σ → Prop
  | go {q : σ} (h : c.Goes e p q) : Lawful c e move p (.go q)
  | reject {m : Minute} {q : σ} (h : c.Rejects e move p m q) : Lawful c e move p (.reject m q)
  | found {m : Minute} (h : c.Nearest e p m) (hweekday : m.date.weekday ∈ e.weekdays) :
      Lawful c e move p (.found m)
  | exhausted {year : Int} (h : ∀ u, e.Admits u → ¬ c.Ahead p u)
      (hyear : c.direction.PastYears e year) : Lawful c e move p (.exhausted year)

def Governs (c : Course σ) (e : Entry) (move : σ → Move σ) : Prop :=
  ∀ p, c.Sound p → c.Lawful e move p (move p)

inductive LawfulWalk (c : Course σ) (e : Entry) (move : σ → Move σ) :
    Nat → Nat → σ → Report → Prop
  | cut (used : Nat) (p : σ) :
      LawfulWalk c e move used 0 p ⟨.unreachable (used + 1), [.gaveUp (used + 1) used]⟩
  | go {used left : Nat} {p q : σ} {r : Report} (hmove : move p = .go q) (h : c.Goes e p q)
      (hwalk : LawfulWalk c e move (used + 1) left q r) :
      LawfulWalk c e move used (left + 1) p r
  | reject {used left : Nat} {p q : σ} {m : Minute} {r : Report} (hmove : move p = .reject m q)
      (h : c.Rejects e move p m q) (hwalk : LawfulWalk c e move (used + 1) left q r) :
      LawfulWalk c e move used (left + 1) p (r.after (.dayRejected m))
  | found {used left : Nat} {p : σ} {m : Minute} (hmove : move p = .found m)
      (h : c.Nearest e p m) (hweekday : m.date.weekday ∈ e.weekdays) :
      LawfulWalk c e move used (left + 1) p ⟨.found m, []⟩
  | exhausted {used left : Nat} {p : σ} {year : Int} (hmove : move p = .exhausted year)
      (h : ∀ u, e.Admits u → ¬ c.Ahead p u) (hyear : c.direction.PastYears e year) :
      LawfulWalk c e move used (left + 1) p ⟨.unreachable (used + 1), [.yearsExhausted year]⟩

theorem Governs.lawfulWalk (hc : c.Governs e move) (used left : Nat) (hp : c.Sound p) :
    c.LawfulWalk e move used left p (walk move used left p) := by
  induction left generalizing used p with
  | zero => exact .cut used p
  | succ left ih =>
    have hlaw := hc p hp
    generalize hmove : move p = step at hlaw
    cases hlaw with
    | @go q h =>
      simp only [walk, hmove]
      exact .go hmove h (ih (used + 1) h.sound)
    | @reject m q h =>
      simp only [walk, hmove]
      exact .reject hmove h (ih (used + 1) h.sound)
    | @found m h hweekday =>
      simp only [walk, hmove]
      exact .found hmove h hweekday
    | @exhausted year h hyear =>
      simp only [walk, hmove]
      exact .exhausted hmove h hyear

end Course

/-- What an outcome says about the triggers among the minutes ahead. -/
def Outcome.Settles (e : Entry) (d : Direction) (Ahead : Minute → Prop) (limit : Nat) :
    Outcome → Prop
  | .found t => e.Fires t ∧ Ahead t ∧ ∀ u, e.Fires u → Ahead u → d.Leads t u
  | .unreachable steps => steps ≤ limit + 1 ∧ (steps ≤ limit → ∀ u, e.Fires u → ¬ Ahead u)
  | .outOfRange _ => False

theorem Outcome.Settles.of_ahead {d : Direction} {Ahead Ahead' : Minute → Prop} {limit : Nat}
    {o : Outcome} (h : o.Settles e d Ahead limit)
    (hahead : ∀ u, e.Fires u → (Ahead u ↔ Ahead' u)) : o.Settles e d Ahead' limit := by
  cases o with
  | found t =>
    obtain ⟨hfires, ht, hleads⟩ := h
    exact ⟨hfires, (hahead t hfires).mp ht,
      fun u hu hp => hleads u hu ((hahead u hu).mpr hp)⟩
  | unreachable steps =>
    exact ⟨h.1, fun hsteps u hu hp => h.2 hsteps u hu ((hahead u hu).mpr hp)⟩
  | outOfRange reference => exact h

namespace Course

theorem Rejects.fires_ahead (h : c.Rejects e move p m q) {u : Minute} (hu : e.Fires u) :
    c.Ahead q u ↔ c.Ahead p u := by
  obtain ⟨hadmits, hweekday⟩ := Entry.fires_iff.mp hu
  rw [h.ahead u hadmits]
  refine and_iff_left ?_
  intro hdate
  rw [hdate] at hweekday
  exact h.weekday hweekday

theorem LawfulWalk.settles {used left : Nat} {r : Report}
    (hwalk : c.LawfulWalk e move used left p r) :
    r.outcome.Settles e c.direction (c.Ahead p) (used + left) := by
  induction hwalk with
  | cut used p => exact ⟨Nat.le_refl _, fun h => absurd h (by omega)⟩
  | @go used left p q r hmove h hwalk ih =>
    rw [Nat.add_right_comm used 1 left] at ih
    exact ih.of_ahead fun u hu => h.ahead u (Entry.fires_iff.mp hu).1
  | @reject used left p q m r hmove h hwalk ih =>
    rw [Nat.add_right_comm used 1 left] at ih
    exact ih.of_ahead fun u hu => h.fires_ahead hu
  | found hmove h hweekday =>
    exact ⟨Entry.fires_iff.mpr ⟨h.admits, hweekday⟩, h.ahead,
      fun u hu hahead => h.leads u (Entry.fires_iff.mp hu).1 hahead⟩
  | exhausted hmove h hyear =>
    exact ⟨by omega, fun _ u hu => h u (Entry.fires_iff.mp hu).1⟩

/-- The walk from `p` ends of itself after `n` steps: a limit of `n` or more does not show, and a
limit below `n` cuts it. -/
structure Spans (move : σ → Move σ) (p : σ) (n : Nat) : Prop where
  taken : ∀ left, taken move left p = min n left
  answers : ∀ used, ∃ r : Report, (∀ left, n ≤ left → walk move used left p = r) ∧
    (∀ left, left < n → (walk move used left p).outcome = .unreachable (used + left + 1)) ∧
    ∀ steps, r.outcome = .unreachable steps → steps = used + n

theorem Spans.of_end {r : Nat → Report} (htaken : ∀ left, Search.taken move (left + 1) p = 1)
    (hend : ∀ used left, walk move used (left + 1) p = r used)
    (hsteps : ∀ used steps, (r used).outcome = .unreachable steps → steps = used + 1) :
    Spans move p 1 := by
  refine ⟨?_, fun used => ⟨r used, ?_, ?_, hsteps used⟩⟩
  · intro left
    cases left with
    | zero => rfl
    | succ left =>
      rw [htaken]
      omega
  · intro left hleft
    obtain ⟨left, rfl⟩ := Nat.exists_eq_add_one.mpr hleft
    exact hend used left
  · intro left hleft
    obtain rfl : left = 0 := by omega
    rfl

theorem Spans.of_step {n : Nat} {f : Report → Report} (h : Spans move q n)
    (htaken : ∀ left, Search.taken move (left + 1) p = Search.taken move left q + 1)
    (hstep : ∀ used left, walk move used (left + 1) p = f (walk move (used + 1) left q))
    (hf : ∀ r, (f r).outcome = r.outcome) : Spans move p (n + 1) := by
  refine ⟨?_, fun used => ?_⟩
  · intro left
    cases left with
    | zero => rfl
    | succ left =>
      rw [htaken, h.taken]
      omega
  obtain ⟨r, hrest, hcut, hsteps⟩ := h.answers (used + 1)
  refine ⟨f r, ?_, ?_, ?_⟩
  · intro left hleft
    obtain ⟨left, rfl⟩ := Nat.exists_eq_add_one.mpr (Nat.lt_of_lt_of_le (Nat.succ_pos n) hleft)
    rw [hstep, hrest left (by omega)]
  · intro left hleft
    cases left with
    | zero => rfl
    | succ left =>
      rw [hstep, hf, hcut left (by omega)]
      congr 1
      omega
  · intro steps hr
    rw [hf] at hr
    have := hsteps steps hr
    omega

theorem exists_spans (hc : c.Governs e move) (hp : c.Sound p) :
    ∃ n, n ≤ c.slack p + 2 * c.days p + 1 ∧ Spans move p n := by
  induction hmeasure : c.slack p + 2 * c.days p using Nat.strongRecOn generalizing p with
  | ind measure ih =>
    subst hmeasure
    have hlaw := hc p hp
    generalize hmove : move p = step at hlaw
    cases hlaw with
    | @go q h =>
      have hslack := h.slack
      have hdays := h.days
      obtain ⟨n, hn, hspans⟩ := ih _ (by omega) h.sound rfl
      exact ⟨n + 1, by omega,
        hspans.of_step (f := id) (by simp [taken, hmove]) (by simp [walk, hmove]) (by simp)⟩
    | @reject m q h =>
      -- the retry may bring one move of slack, but its day is gone and counts twice
      have hslack := h.slack
      have hdays := h.days
      obtain ⟨n, hn, hspans⟩ := ih _ (by omega) h.sound rfl
      exact ⟨n + 1, by omega, hspans.of_step (f := Report.after (.dayRejected m))
        (by simp [taken, hmove]) (by simp [walk, hmove]) fun r => rfl⟩
    | @found m h hweekday =>
      exact ⟨1, by omega, .of_end (r := fun _ => ⟨.found m, []⟩) (by simp [taken, hmove])
        (by simp [walk, hmove]) (by simp)⟩
    | @exhausted year h hyear =>
      exact ⟨1, by omega,
        .of_end (r := fun used => ⟨.unreachable (used + 1), [.yearsExhausted year]⟩)
          (by simp [taken, hmove]) (by simp [walk, hmove]) (by simp)⟩

end Course

def Report.rejected (r : Report) : List Minute :=
  r.events.filterMap fun
    | .dayRejected candidate => some candidate
    | _ => none

theorem Report.rejected_after (m : Minute) (r : Report) :
    (r.after (.dayRejected m)).rejected = m :: r.rejected := rfl

/-- The search has ended with `u` unmet, in front of it or because of the limit. -/
def Outcome.EndsBefore (d : Direction) (limit : Nat) (u : Minute) : Outcome → Prop
  | .found t => d.Leads t u
  | .unreachable steps => steps = limit + 1
  | .outOfRange _ => False

namespace Course

namespace LawfulWalk

variable {used left : Nat} {r : Report}

theorem rejected (hwalk : c.LawfulWalk e move used left p r) :
    ∀ m ∈ r.rejected, e.Admits m ∧ m.date.weekday ∉ e.weekdays ∧ c.Ahead p m := by
  induction hwalk with
  | cut used p => exact List.forall_mem_nil _
  | go hmove h hwalk ih =>
    intro m hm
    obtain ⟨hadmits, hweekday, hahead⟩ := ih m hm
    exact ⟨hadmits, hweekday, (h.ahead m hadmits).mp hahead⟩
  | reject hmove h hwalk ih =>
    refine List.forall_mem_cons.mpr ⟨⟨h.nearest.admits, h.weekday, h.nearest.ahead⟩, ?_⟩
    intro m hm
    obtain ⟨hadmits, hweekday, hahead⟩ := ih m hm
    exact ⟨hadmits, hweekday, ((h.ahead m hadmits).mp hahead).1⟩
  | found hmove h hweekday => exact List.forall_mem_nil _
  | exhausted hmove h hyear => exact List.forall_mem_nil _

theorem rejected_ordered (hwalk : c.LawfulWalk e move used left p r) :
    r.rejected.Pairwise fun a b => c.direction.Leads a b ∧ a.date ≠ b.date := by
  induction hwalk with
  | cut used p => exact .nil
  | go hmove h hwalk ih => exact ih
  | reject hmove h hwalk ih =>
    refine List.pairwise_cons.mpr ⟨?_, ih⟩
    intro m hm
    obtain ⟨hadmits, -, hahead⟩ := hwalk.rejected m hm
    obtain ⟨hahead, hdate⟩ := (h.ahead m hadmits).mp hahead
    exact ⟨h.nearest.leads m hadmits hahead, Ne.symm hdate⟩
  | found hmove h hweekday => exact .nil
  | exhausted hmove h hyear => exact .nil

theorem rejected_nearest (hwalk : c.LawfulWalk e move used left p r) :
    ∀ m ∈ r.rejected, ∀ u, e.Admits u → c.Ahead p u → u.date = m.date →
      c.direction.Leads m u := by
  induction hwalk with
  | cut used p => exact List.forall_mem_nil _
  | go hmove h hwalk ih =>
    intro m hm u hu hahead
    exact ih m hm u hu ((h.ahead u hu).mpr hahead)
  | reject hmove h hwalk ih =>
    refine List.forall_mem_cons.mpr ⟨fun u hu hahead _ => h.nearest.leads u hu hahead, ?_⟩
    intro m hm u hu hahead hdate
    -- a later candidate is on another day, and `u` on that day is still ahead
    obtain ⟨hadmits, -, hlater⟩ := hwalk.rejected m hm
    obtain ⟨-, hne⟩ := (h.ahead m hadmits).mp hlater
    exact ih m hm u hu ((h.ahead u hu).mpr ⟨hahead, hdate ▸ hne⟩) hdate
  | found hmove h hweekday => exact List.forall_mem_nil _
  | exhausted hmove h hyear => exact List.forall_mem_nil _

theorem rejected_eq_turnedAway (hwalk : c.LawfulWalk e move used left p r) :
    r.rejected = turnedAway move left p := by
  induction hwalk with
  | cut used p => rfl
  | go hmove h hwalk ih => simpa only [turnedAway, hmove] using ih
  | reject hmove h hwalk ih => simp only [turnedAway, hmove, Report.rejected_after, ih]
  | found hmove h hweekday =>
    simp only [turnedAway, hmove]
    rfl
  | exhausted hmove h hyear =>
    simp only [turnedAway, hmove]
    rfl

/-- The day of an admitted minute is one of those that were left, or it lies behind all of them and
the walk has ended in front of it. -/
theorem covers (hwalk : c.LawfulWalk e move used left p r) {u : Minute} (hu : e.Admits u)
    (hahead : c.Ahead p u) :
    (∃ m ∈ r.rejected, m.date = u.date) ∨
      (∀ m ∈ r.rejected, c.direction.Leads m u) ∧
        r.outcome.EndsBefore c.direction (used + left) u := by
  induction hwalk with
  | cut used p => exact .inr ⟨List.forall_mem_nil _, rfl⟩
  | @go used left p q r hmove h hwalk ih =>
    rw [Nat.add_right_comm used 1 left] at ih
    exact ih ((h.ahead u hu).mpr hahead)
  | @reject used left p q first r hmove h hwalk ih =>
    rw [Nat.add_right_comm used 1 left] at ih
    rw [Report.rejected_after]
    by_cases hdate : u.date = first.date
    · exact .inl ⟨first, List.mem_cons_self, hdate.symm⟩
    · rcases ih ((h.ahead u hu).mpr ⟨hahead, hdate⟩) with ⟨m, hm, hdate⟩ | ⟨hleads, hends⟩
      · exact .inl ⟨m, List.mem_cons_of_mem _ hm, hdate⟩
      · exact .inr ⟨List.forall_mem_cons.mpr ⟨h.nearest.leads u hu hahead, hleads⟩, hends⟩
  | found hmove h hweekday => exact .inr ⟨List.forall_mem_nil _, h.leads u hu hahead⟩
  | exhausted hmove h hyear => exact absurd hahead (h u hu)

theorem rejected_leads (hwalk : c.LawfulWalk e move used left p r) {u : Minute} (hu : e.Fires u)
    (hahead : c.Ahead p u) : ∀ m ∈ r.rejected, c.direction.Leads m u := by
  obtain ⟨hadmits, hweekday⟩ := Entry.fires_iff.mp hu
  rcases hwalk.covers hadmits hahead with ⟨m, hm, hdate⟩ | ⟨hleads, -⟩
  · rw [← hdate] at hweekday
    exact absurd hweekday (hwalk.rejected m hm).2.1
  · exact hleads

/-- Each rejection takes two steps, one for the candidate and one to leave its day: a walk that goes
on from `p` has a step to spare. A step that the limit refuses counts. -/
theorem two_mul_rejected_lt (hwalk : c.LawfulWalk e move used left p r) {bound : Nat}
    (hfound : ∀ t, r.outcome = .found t → used + left ≤ bound)
    (hsteps : ∀ steps, r.outcome = .unreachable steps → steps < bound) :
    used + 2 * r.rejected.length < bound ∧
      ∀ next, move p = .go next → used + 2 * r.rejected.length + 1 < bound := by
  induction hwalk with
  | cut used p =>
    have hlt := hsteps _ rfl
    exact ⟨Nat.lt_of_succ_lt hlt, fun _ _ => hlt⟩
  | @go used left p q r hmove h hwalk ih =>
    rw [Nat.add_right_comm used 1 left] at ih
    have hlt := (ih hfound hsteps).1
    exact ⟨by omega, fun _ _ => by omega⟩
  | @reject used left p q first r hmove h hwalk ih =>
    rw [Nat.add_right_comm used 1 left] at ih
    obtain ⟨next, hnext⟩ := h.resumes
    have hlt := (ih hfound hsteps).2 next hnext
    rw [Report.rejected_after, List.length_cons]
    refine ⟨by omega, fun _ hgo => ?_⟩
    rw [hmove] at hgo
    cases hgo
  | @found used left p t hmove h hweekday =>
    have hle := hfound t rfl
    have hlt : used < bound := by omega
    refine ⟨hlt, fun _ hgo => ?_⟩
    rw [hmove] at hgo
    cases hgo
  | exhausted hmove h hyear =>
    refine ⟨Nat.lt_of_succ_lt (hsteps _ rfl), fun _ hgo => ?_⟩
    rw [hmove] at hgo
    cases hgo

theorem steps_le (hwalk : c.LawfulWalk e move used left p r) {steps : Nat}
    (hsteps : r.outcome = .unreachable steps) :
    steps ≤ used + c.slack p + 2 * r.rejected.length + 1 := by
  induction hwalk with
  | cut used p =>
    cases hsteps
    omega
  | go hmove h hwalk ih =>
    have hle := ih hsteps
    have hslack := h.slack
    omega
  | reject hmove h hwalk ih =>
    have hle := ih hsteps
    have hslack := h.slack
    rw [Report.rejected_after, List.length_cons]
    omega
  | found hmove h hweekday => cases hsteps
  | exhausted hmove h hyear =>
    cases hsteps
    omega

end LawfulWalk

end Course

end Search

end CronCalendar
