import CronCalendar.Proofs.Search.Conduct

/-!
# The step limit as a threshold

The limit does nothing but cut. A query takes some number of steps of its own accord, and that
number is bounded for all entries and all references, since months and days are counted only between
the years 2000 and 2100. From that number on no limit shows in the answer, and any lower limit is
exceeded by one step and reported so.
-/

namespace CronCalendar.Entry

open Search

def stepsTaken (e : Entry) (d : Direction) (t : Instant) : Nat :=
  match base? d t with
  | some m => e.taken d e.config.maxSteps.toNat m
  | none => 0

theorem walk_threshold (e : Entry) (d : Direction) (m : Minute) :
    ∃ n ≤ 200000, (∀ limit, e.taken d limit m = min n limit) ∧
      ∃ r : Report, (∀ limit, n ≤ limit → e.walk d limit m = r) ∧
        (∀ limit, limit < n → (e.walk d limit m).outcome = .unreachable (limit + 1)) ∧
        ∀ steps, r.outcome = .unreachable steps → steps = n := by
  have hslack := (e.conduct d m).slack_le
  have hdays := (e.conduct d m).days_le
  obtain ⟨n, hn, hspans⟩ := Course.exists_spans (e.conduct d m).governs (e.conduct d m).sound
  obtain ⟨r, hrest, hcut, hsteps⟩ := hspans.answers 0
  simp only [Nat.zero_add] at hcut hsteps
  simp only [(e.conduct d m).walk_eq, (e.conduct d m).taken_eq]
  exact ⟨n, by omega, hspans.taken, r, hrest, hcut, hsteps⟩

theorem steps_le_of_seek {e : Entry} {d : Direction} {t : Instant}
    (hlimit : 200000 ≤ e.config.maxSteps.toNat) {expression : String} {steps : Nat}
    (h : e.seek d t = .error (.unreachable expression steps)) :
    steps ≤ e.config.maxSteps.toNat := by
  unfold seek search at h
  cases hbase : base? d t with
  | none =>
    rw [hbase] at h
    cases h
  | some m =>
    obtain ⟨n, hn, -, r, hrest, -, hsteps⟩ := e.walk_threshold d m
    have hwalk : e.walk d e.config.maxSteps.toNat m = r := hrest _ (by omega)
    rw [hbase] at h
    dsimp only at h
    rw [hwalk] at h
    generalize r.outcome = outcome at h hsteps
    cases outcome with
    | found trigger => cases h
    | outOfRange reference => cases h
    | unreachable taken =>
      cases h
      rw [hsteps _ rfl]
      omega

variable (e : Entry) (config : Config) (d : Direction) (t : Instant)

theorem display_withConfig : (e.withConfig config).display = e.display := rfl

theorem walk_withConfig (limit : Nat) (m : Minute) :
    (e.withConfig config).walk d limit m = e.walk d limit m := by
  cases d <;> rfl

theorem taken_withConfig (limit : Nat) (m : Minute) :
    (e.withConfig config).taken d limit m = e.taken d limit m := by
  cases d <;> rfl

theorem seek_withConfig {m : Minute} (h : base? d t = some m) :
    (e.withConfig config).seek d t =
      (e.walk d config.maxSteps.toNat m).outcome.answer e.display := by
  unfold seek search
  rw [h, ← display_withConfig e config, ← walk_withConfig e config]
  rfl

/-- For each query there is a number of steps from which on the limit of the configuration does not
matter, and below which the limit is all that is reported. -/
theorem seek_threshold (e : Entry) (d : Direction) (t : Instant) :
    ∃ n ≤ 200000, ∃ answer : Except SearchError Instant,
      (∀ expression steps, answer = .error (.unreachable expression steps) → steps = n) ∧
      ∀ config : Config,
        (e.withConfig config).stepsTaken d t = min n config.maxSteps.toNat ∧
        (n ≤ config.maxSteps.toNat → (e.withConfig config).seek d t = answer) ∧
        (config.maxSteps.toNat < n → (e.withConfig config).seek d t =
          .error (.unreachable e.display (config.maxSteps.toNat + 1))) := by
  cases hbase : base? d t with
  | none =>
    refine ⟨0, by omega, .error (.outOfRange t), by simp, fun config => ⟨?_, ?_, by omega⟩⟩
    · simp [stepsTaken, hbase]
    · simp [seek, search, hbase, Outcome.answer]
  | some m =>
    obtain ⟨n, hn, htaken, r, hrest, hcut, hsteps⟩ := e.walk_threshold d m
    refine ⟨n, hn, r.outcome.answer e.display, ?_, fun config => ⟨?_, ?_, ?_⟩⟩
    · intro expression steps hanswer
      generalize r.outcome = outcome at hanswer hsteps
      cases outcome with
      | found trigger => cases hanswer
      | unreachable steps' =>
        cases hanswer
        exact hsteps _ rfl
      | outOfRange reference => cases hanswer
    · rw [← htaken, ← taken_withConfig e config, stepsTaken, hbase]
      rfl
    · intro hle
      rw [e.seek_withConfig config d t hbase, hrest _ hle]
    · intro hlt
      rw [e.seek_withConfig config d t hbase, hcut _ hlt]
      rfl

end CronCalendar.Entry
