import CronCalendar.Proofs.Search.Conduct

/-!
# Searches find the nearest trigger

A search from a reference gives the trigger nearest to it on its side, or reports how many steps it
took in vain. When the report stays within the limit, the years have run out and there is no trigger
on that side at all; one step more than the limit is the sign that the search was cut. Both
directions are instances of one statement about lawful walks, and the reference enters it only
through the minute from which the search sets out.
-/

namespace CronCalendar

def Instant.Aligned (t : Instant) : Prop := t.second = 0 ∧ t.nano = 0

def Direction.Beyond : Direction → Instant → Instant → Prop
  | .forward, t, u => t < u
  | .backward, t, u => u < t

namespace Instant

theorem Aligned.eq_start {t : Instant} (h : t.Aligned) : t = t.minute.start := by
  obtain ⟨minute, second, nano, valid⟩ := t
  obtain ⟨rfl, rfl⟩ := h
  rfl

theorem aligned_start (m : Minute) : m.start.Aligned := ⟨rfl, rfl⟩

theorem lt_start_iff {t : Instant} {u : Minute} : t < u.start ↔ t.minute.key < u.key := by
  rw [← Minute.elapsed_lt_iff]
  change Before t u.start ↔ _
  simp [Before, Minute.start]

theorem start_lt_start_iff {m u : Minute} : m.start < u.start ↔ m.key < u.key := lt_start_iff

theorem start_lt_iff {t : Instant} {u : Minute} :
    u.start < t ↔ u.key < t.minute.key ∨ u = t.minute ∧ ¬ t.Aligned := by
  have hsame : u = t.minute ↔ u.elapsed = t.minute.elapsed := by
    constructor
    · rintro rfl
      rfl
    · intro h
      have hle := Minute.elapsed_le_iff.mp (Int.le_of_eq h)
      have hge := Minute.elapsed_le_iff.mp (Int.le_of_eq h.symm)
      exact Minute.eq_of_key_eq (Int.le_antisymm hle hge)
  rw [← Minute.elapsed_lt_iff, hsame]
  change Before u.start t ↔ _
  simp only [Before, Minute.start, Aligned]
  omega

end Instant

theorem Direction.beyond_of_leads {d : Direction} {a b : Minute} (h : d.Leads a b)
    (hdate : a.date ≠ b.date) : d.Beyond a.start b.start := by
  have hkey : a.key ≠ b.key := fun hkey => hdate (congrArg Minute.date (Minute.eq_of_key_eq hkey))
  cases d with
  | forward =>
    have hle : a.key ≤ b.key := h
    exact Instant.start_lt_start_iff.mpr (by omega)
  | backward =>
    have hle : b.key ≤ a.key := h
    exact Instant.start_lt_start_iff.mpr (by omega)

theorem Direction.not_leads_of_beyond {d : Direction} {a b : Minute}
    (h : d.Beyond a.start b.start) : ¬ d.Leads b a := by
  cases d with
  | forward =>
    have hlt : a.key < b.key := Instant.start_lt_start_iff.mp h
    exact Int.not_le.mpr hlt
  | backward =>
    have hlt : b.key < a.key := Instant.start_lt_start_iff.mp h
    exact Int.not_le.mpr hlt

namespace Entry

open Search

variable {e : Entry} {d : Direction} {t : Instant} {m : Minute}

/-- A search sets out from the first minute on its side of the reference. -/
theorem leads_base_iff (h : base? d t = some m) (u : Minute) :
    d.Leads m u ↔ d.Beyond t u.start := by
  cases d with
  | forward =>
    simp only [Direction.Leads, Direction.Beyond, Instant.lt_start_iff]
    exact Minute.key_le_of_succ? h u
  | backward =>
    have hinside : t.minute.start < t ↔ ¬ t.Aligned := by
      simp [Instant.start_lt_iff]
    have hsame : u = t.minute ↔ u.key = t.minute.key :=
      ⟨congrArg Minute.key, Minute.eq_of_key_eq⟩
    simp only [Direction.Leads, Direction.Beyond, Instant.start_lt_iff, hsame]
    by_cases haligned : t.Aligned
    · rw [base?, if_neg (by simp [hinside, haligned])] at h
      simp only [haligned, not_true_eq_false, and_false, or_false]
      exact Minute.le_key_of_pred? h u
    · rw [base?, if_pos (hinside.mpr haligned)] at h
      cases h
      simp only [haligned, not_false_eq_true, and_true]
      omega

theorem exists_base?_forward (h : t.minute.date.year < maxYear) : ∃ m, base? .forward t = some m :=
  Minute.exists_succ? h

theorem exists_base?_backward (h : minYear < t.minute.date.year) :
    ∃ m, base? .backward t = some m := by
  by_cases hinside : t.minute.start < t
  · exact ⟨t.minute, if_pos hinside⟩
  · rw [base?, if_neg hinside]
    exact Minute.exists_pred? h

theorem exists_base? {u : Minute} (hu : e.Admits u) (h : d.Beyond t u.start) :
    ∃ m, base? d t = some m := by
  have hyear := hu.year_bounds
  cases d with
  | forward =>
    have hlt : t.minute.key < u.key := Instant.lt_start_iff.mp h
    have hle := Minute.year_le_of_key_le (Int.le_of_lt hlt)
    exact exists_base?_forward (by simp only [maxYear]; omega)
  | backward =>
    have hle : u.key ≤ t.minute.key := by
      rcases Instant.start_lt_iff.mp h with hlt | ⟨rfl, -⟩
      · exact Int.le_of_lt hlt
      · exact Int.le_refl _
    have hle := Minute.year_le_of_key_le hle
    exact exists_base?_backward (by simp only [minYear]; omega)

theorem exists_base?_of_admits (h : e.Admits t.minute) (d : Direction) :
    ∃ m, base? d t = some m := by
  have hyear := h.year_bounds
  cases d with
  | forward => exact exists_base?_forward (by simp only [maxYear]; omega)
  | backward => exact exists_base?_backward (by simp only [minYear]; omega)

theorem seek_nearest (e : Entry) (d : Direction) (t : Instant) :
    match e.seek d t with
    | .ok found => ∃ m : Minute, found = m.start ∧ e.Fires m ∧ d.Beyond t m.start ∧
        ∀ u, e.Fires u → d.Beyond t u.start → d.Leads m u
    | .error (.unreachable expression steps) =>
      expression = e.display ∧ steps ≤ e.config.maxSteps.toNat + 1 ∧
        (steps ≤ e.config.maxSteps.toNat → ∀ u, e.Fires u → ¬ d.Beyond t u.start)
    | .error (.outOfRange reference) => reference = t ∧ base? d t = none := by
  unfold seek search
  cases hbase : base? d t with
  | none => exact ⟨rfl, rfl⟩
  | some m =>
    have hsettles := (e.walk_settles d e.config.maxSteps.toNat m).of_ahead
      fun u _ => leads_base_iff hbase u
    dsimp only
    generalize (e.walk d e.config.maxSteps.toNat m).outcome = outcome at hsettles
    cases outcome with
    | found trigger => exact ⟨trigger, rfl, hsettles⟩
    | unreachable steps => exact ⟨rfl, hsettles⟩
    | outOfRange reference => exact hsettles.elim

theorem nearest_of_seek {found : Instant} (h : e.seek d t = .ok found) :
    found.Aligned ∧ d.Beyond t found ∧ e.Matches found ∧
      ∀ u : Instant, u.Aligned → d.Beyond t u → d.Beyond u found → ¬ e.Matches u := by
  have hseek := e.seek_nearest d t
  rw [h] at hseek
  obtain ⟨m, rfl, hfires, hbeyond, hleads⟩ := hseek
  refine ⟨Instant.aligned_start m, hbeyond, hfires, fun u hu hut hum hmatches => ?_⟩
  rw [hu.eq_start] at hut hum
  exact Direction.not_leads_of_beyond hum (hleads u.minute hmatches hut)

theorem exhausted_of_seek {expression : String} {steps : Nat}
    (h : e.seek d t = .error (.unreachable expression steps)) :
    expression = e.display ∧ steps ≤ e.config.maxSteps.toNat + 1 ∧
      (steps ≤ e.config.maxSteps.toNat →
        ∀ u : Instant, u.Aligned → d.Beyond t u → ¬ e.Matches u) := by
  have hseek := e.seek_nearest d t
  rw [h] at hseek
  obtain ⟨hexpression, hle, hnone⟩ := hseek
  refine ⟨hexpression, hle, fun hsteps u hu hbeyond hmatches => ?_⟩
  rw [hu.eq_start] at hbeyond
  exact hnone hsteps u.minute hmatches hbeyond

theorem reference_of_seek {reference : Instant} (h : e.seek d t = .error (.outOfRange reference)) :
    reference = t ∧ base? d t = none := by
  have hseek := e.seek_nearest d t
  rwa [h] at hseek

/-- The next trigger is the earliest instant after the reference that matches, and a search that
keeps within its limit in vain has none to find. -/
theorem nextAfter_nearest (e : Entry) (t : Instant) :
    match e.nextAfter t with
    | .ok next =>
      next.Aligned ∧ t < next ∧ e.Matches next ∧
        ∀ u : Instant, u.Aligned → t < u → u < next → ¬ e.Matches u
    | .error (.unreachable expression steps) =>
      expression = e.display ∧ steps ≤ e.config.maxSteps.toNat + 1 ∧
        (steps ≤ e.config.maxSteps.toNat → ∀ u : Instant, u.Aligned → t < u → ¬ e.Matches u)
    | .error (.outOfRange reference) => reference = t := by
  cases hanswer : e.nextAfter t with
  | ok next => exact nearest_of_seek hanswer
  | error err =>
    cases err with
    | unreachable expression steps => exact exhausted_of_seek hanswer
    | outOfRange reference => exact (reference_of_seek hanswer).1

/-- The previous trigger is the latest instant before the reference that matches, and a search that
keeps within its limit in vain has none to find. -/
theorem prevBefore_nearest (e : Entry) (t : Instant) :
    match e.prevBefore t with
    | .ok prev =>
      prev.Aligned ∧ prev < t ∧ e.Matches prev ∧
        ∀ u : Instant, u.Aligned → prev < u → u < t → ¬ e.Matches u
    | .error (.unreachable expression steps) =>
      expression = e.display ∧ steps ≤ e.config.maxSteps.toNat + 1 ∧
        (steps ≤ e.config.maxSteps.toNat → ∀ u : Instant, u.Aligned → u < t → ¬ e.Matches u)
    | .error (.outOfRange reference) => reference = t := by
  cases hanswer : e.prevBefore t with
  | ok prev =>
    obtain ⟨haligned, hbeyond, hmatches, hnearest⟩ := nearest_of_seek hanswer
    exact ⟨haligned, hbeyond, hmatches, fun u hu hprev hut => hnearest u hu hut hprev⟩
  | error err =>
    cases err with
    | unreachable expression steps => exact exhausted_of_seek hanswer
    | outOfRange reference => exact (reference_of_seek hanswer).1

end Entry

end CronCalendar
