import CronCalendar.Proofs.Search.Budget
import Mathlib.Data.List.Nodup

/-!
# The trail of a search

The events of a search account for its answer. First come the candidates that its moves turned away,
in the order of the moves: on each day that is ruled out by its weekday it meets one, the nearest
minute there that every other field allows. At most one event follows, and it tells a search that
has run out of years from one that was cut by its limit.

The days that are skipped leave no gap. They reach to the trigger, or over all days if the years have
run out, and a search that was cut has skipped as many as its steps allow.
-/

namespace CronCalendar

namespace Search

inductive Closing (e : Entry) (d : Direction) (limit : Nat) : Outcome → List Event → Prop
  | found (trigger : Minute) : Closing e d limit (.found trigger) []
  | exhausted {steps : Nat} {year : Int} (hsteps : steps ≤ limit) (hyear : d.PastYears e year) :
      Closing e d limit (.unreachable steps) [.yearsExhausted year]
  | gaveUp : Closing e d limit (.unreachable (limit + 1)) [.gaveUp (limit + 1) limit]
  | outOfRange (reference : Instant) : Closing e d limit (.outOfRange reference) []

namespace Course

variable {σ : Type} {e : Entry} {move : σ → Move σ} {c : Course σ} {p : σ}

theorem LawfulWalk.closing {used left : Nat} {r : Report}
    (hwalk : c.LawfulWalk e move used left p r) :
    ∃ closing, Closing e c.direction (used + left) r.outcome closing ∧
      r.events = r.rejected.map .dayRejected ++ closing := by
  induction hwalk with
  | cut used p => exact ⟨_, .gaveUp, rfl⟩
  | @go used left p q r hmove h hwalk ih =>
    rwa [Nat.add_right_comm used 1 left] at ih
  | @reject used left p q m r hmove h hwalk ih =>
    rw [Nat.add_right_comm used 1 left] at ih
    obtain ⟨closing, hclosing, hevents⟩ := ih
    exact ⟨closing, hclosing, congrArg (Event.dayRejected m :: ·) hevents⟩
  | @found used left p m hmove h hweekday => exact ⟨_, .found m, rfl⟩
  | @exhausted used left p year hmove h hyear => exact ⟨_, .exhausted (by omega) hyear, rfl⟩

end Course

end Search

namespace Entry

open Search

def skipped (e : Entry) (d : Direction) (t : Instant) : List Minute :=
  match base? d t with
  | some m => e.turnedAway d e.config.maxSteps.toNat m
  | none => []

/-- Of the admitted minutes beyond the reference that satisfy `P`, each has a skipped one on its day,
and one only. -/
def Covers (e : Entry) (d : Direction) (t : Instant) (skipped : List Minute) (P : Minute → Prop) :
    Prop :=
  ∀ u, e.Admits u → d.Beyond t u.start → P u → ∃! m, m ∈ skipped ∧ m.date = u.date

/-- Decoys as a search meets them: further and further from the reference, each the nearest to it of
the minutes that the entry admits on the same day, and none left out in between. -/
structure Skips (e : Entry) (d : Direction) (t : Instant) (skipped : List Minute) : Prop
    extends e.Decoys d t skipped where
  ordered : skipped.Pairwise fun a b => d.Beyond a.start b.start
  nearest : ∀ m ∈ skipped, ∀ u, e.Admits u → d.Beyond t u.start → u.date = m.date → d.Leads m u
  gapless : ∀ m ∈ skipped, e.Covers d t skipped fun u => d.Beyond u.start m.start

/-- How far the skipped days reach when the answer is given. A search that fails has taken two steps
for each of them and at most 1214 others. -/
def Reaches (e : Entry) (d : Direction) (t : Instant) (skipped : List Minute) :
    Except SearchError Instant → Prop
  | .ok trigger =>
    (∀ m ∈ skipped, d.Beyond m.start trigger) ∧
      e.Covers d t skipped fun u => d.Beyond u.start trigger
  | .error (.unreachable _ steps) =>
    (steps ≤ e.config.maxSteps.toNat → e.Covers d t skipped fun _ => True) ∧
      2 * skipped.length ≤ steps ∧ steps ≤ 2 * skipped.length + 1214
  | .error (.outOfRange _) => skipped = []

variable {e : Entry} {d : Direction} {t : Instant} {m u : Minute} {decoys : List Minute}

theorem skipped_of_base (h : base? d t = some m) :
    e.skipped d t = (e.walk d e.config.maxSteps.toNat m).rejected := by
  rw [skipped, h, rejected_walk]

theorem skipped_of_none (h : base? d t = none) : e.skipped d t = [] := by
  rw [skipped, h]

theorem Decoys.existsUnique (hdecoys : e.Decoys d t decoys) (h : ∃ m ∈ decoys, m.date = u.date) :
    ∃! m, m ∈ decoys ∧ m.date = u.date := by
  obtain ⟨m, hm, hdate⟩ := h
  refine ⟨m, ⟨hm, hdate⟩, ?_⟩
  rintro m' ⟨hm', hdate'⟩
  exact List.inj_on_of_nodup_map hdecoys.dates hm' hm (hdate'.trans hdate.symm)

theorem rejected_skips (h : base? d t = some m) (limit : Nat) :
    e.Skips d t (e.walk d limit m).rejected := by
  have hdecoys := rejected_decoys (e := e) h limit
  have hordered := (e.lawfulWalk d limit m).rejected_ordered
  have hnearest := (e.lawfulWalk d limit m).rejected_nearest
  rw [(e.conduct d m).direction] at hordered hnearest
  refine ⟨hdecoys, ?_, ?_, ?_⟩
  · exact hordered.imp fun hab => Direction.beyond_of_leads hab.1 hab.2
  · intro r hr u hu hbeyond
    exact hnearest r hr u hu (((e.conduct d m).ahead u hu).mpr ((leads_base_iff h u).mpr hbeyond))
  · intro r hr u hu hbeyond hshort
    rcases walk_covers h limit hu hbeyond with hmem | ⟨hleads, -⟩
    · exact hdecoys.existsUnique hmem
    · exact absurd (hleads r hr) (Direction.not_leads_of_beyond hshort)

theorem skips_nil (e : Entry) (d : Direction) (t : Instant) : e.Skips d t [] :=
  ⟨⟨List.nodup_nil, List.forall_mem_nil _, List.forall_mem_nil _, List.forall_mem_nil _,
    List.forall_mem_nil _⟩, .nil, List.forall_mem_nil _, List.forall_mem_nil _⟩

theorem skipped_skips (e : Entry) (d : Direction) (t : Instant) :
    e.Skips d t (e.skipped d t) := by
  cases hbase : base? d t with
  | none =>
    rw [skipped_of_none hbase]
    exact e.skips_nil d t
  | some m =>
    rw [skipped_of_base hbase]
    exact rejected_skips hbase _

theorem two_mul_rejected_le {limit steps : Nat}
    (h : (e.walk d limit m).outcome = .unreachable steps) :
    2 * (e.walk d limit m).rejected.length ≤ steps := by
  have hlt : 0 + 2 * (e.walk d limit m).rejected.length < steps + 1 :=
    ((e.lawfulWalk d limit m).two_mul_rejected_lt (by simp [h]) (by simp [h])).1
  omega

theorem skipped_reaches (e : Entry) (d : Direction) (t : Instant) :
    e.Reaches d t (e.skipped d t) (e.seek d t) := by
  have hskips := e.skipped_skips d t
  unfold seek search
  cases hbase : base? d t with
  | none => exact skipped_of_none hbase
  | some m =>
    rw [skipped_of_base hbase] at hskips ⊢
    have hsettles := e.walk_settles d e.config.maxSteps.toNat m
    dsimp only
    cases houtcome : (e.walk d e.config.maxSteps.toNat m).outcome with
    | found trigger =>
      rw [houtcome] at hsettles
      obtain ⟨hfires, hahead, -⟩ := hsettles
      have hbeyond := (leads_base_iff hbase trigger).mp hahead
      refine ⟨fun r hr => ?_, fun u hu hbeyond hshort => ?_⟩
      · exact hskips.short r hr trigger.start (Instant.aligned_start trigger) hbeyond hfires
      · exact hskips.existsUnique (rejected_covers hbase houtcome hu hbeyond hshort)
    | unreachable steps =>
      refine ⟨fun hsteps u hu hbeyond _ => ?_, two_mul_rejected_le houtcome, walk_steps_le houtcome⟩
      rcases walk_covers hbase e.config.maxSteps.toNat hu hbeyond with hmem | ⟨-, hends⟩
      · exact hskips.existsUnique hmem
      · rw [houtcome] at hends
        have hcut : steps = e.config.maxSteps.toNat + 1 := hends
        omega
    | outOfRange reference =>
      rw [houtcome] at hsettles
      exact hsettles.elim

theorem search_trail (e : Entry) (d : Direction) (t : Instant) :
    ∃ closing, (e.search d t).events = (e.skipped d t).map .dayRejected ++ closing ∧
      Closing e d e.config.maxSteps.toNat (e.search d t).outcome closing := by
  unfold search
  cases hbase : base? d t with
  | none =>
    rw [skipped_of_none hbase]
    exact ⟨[], rfl, .outOfRange t⟩
  | some m =>
    rw [skipped_of_base hbase]
    obtain ⟨closing, hclosing, hevents⟩ := (e.lawfulWalk d e.config.maxSteps.toNat m).closing
    rw [Nat.zero_add, (e.conduct d m).direction] at hclosing
    exact ⟨closing, hevents, hclosing⟩

end Entry

end CronCalendar
