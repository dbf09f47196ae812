import CronCalendar.Proofs.Log.Filter
import CronCalendar.Proofs.Search.Trail

/-!
# The log of one query

At level `trace` a logger that hands records on receives the trail of a search as it is: one trace
record for every day skipped, and one debug record behind them if the search failed under its limit
or because of it.
-/

namespace CronCalendar.Log

open Search

def skippedRecord (e : Entry) (m : Minute) : Record :=
  ⟨.trace, entryTarget, m.start.display ++ " rejected by day of week '" ++ e.weekdays.raw ++ "'"⟩

inductive Explains (e : Entry) (d : Direction) (steps : Nat) : Record → Prop
  | exhausted {year : Int} (hsteps : steps ≤ e.config.maxSteps.toNat) (hyear : d.PastYears e year) :
      Explains e d steps ⟨.debug, searchTarget,
        "Year field '" ++ e.years.raw ++ "' of '" ++ e.display ++ "' has no allowed year left from "
          ++ toString year⟩
  | gaveUp (hsteps : e.config.maxSteps.toNat < steps) :
      Explains e d steps ⟨.debug, searchTarget,
        "Search for '" ++ e.display ++ "' gave up after " ++ toString steps ++ " of " ++
          toString e.config.maxSteps.toNat ++ " steps"⟩

/-- The records behind those of the skipped days, by the answer of the search. -/
def Concludes (e : Entry) (d : Direction) (closing : List Record) :
    Except SearchError Instant → Prop
  | .ok _ | .error (.outOfRange _) => closing = []
  | .error (.unreachable _ steps) => ∃ r, closing = [r] ∧ Explains e d steps r

theorem concludes_of_closing {e : Entry} {d : Direction} {outcome : Outcome} {closing : List Event}
    (h : Closing e d e.config.maxSteps.toNat outcome closing) :
    Concludes e d (closing.map (eventRecord e)) (outcome.answer e.display) := by
  cases h with
  | found trigger => rfl
  | exhausted hsteps hyear => exact ⟨_, rfl, .exhausted hsteps hyear⟩
  | gaveUp => exact ⟨_, rfl, .gaveUp (Nat.lt_succ_self _)⟩
  | outOfRange reference => rfl

theorem reportRecords_search (e : Entry) (d : Direction) (t : Instant) :
    ∃ closing, reportRecords e (e.search d t) = (e.skipped d t).map (skippedRecord e) ++ closing ∧
      Concludes e d closing (e.seek d t) := by
  obtain ⟨closing, hevents, hclosing⟩ := e.search_trail d t
  refine ⟨closing.map (eventRecord e), ?_, concludes_of_closing hclosing⟩
  rw [reportRecords, hevents, List.map_append, List.map_map]
  rfl

/-- The records of one query are those of the days that it skips, and behind them one that says why
the search failed. The days leave no gap, and they reach as far as the answer says. No record of
level `info` or above comes from an entry. -/
theorem Session.seek_logs (stamp : String) {s : Session} (hs : s.logger.Hands)
    (htrace : s.logger.level = .trace) (e : Entry) (d : Direction) (t : Instant) :
    (∃ closing, Concludes e d closing (e.seek d t) ∧
      s.perform stamp (.ask e (.seek d t)) =
        ⟨.answers (.ok [.trigger (e.seek d t)]),
          ((e.skipped d t).map (skippedRecord e) ++ closing).map .handed, s⟩ ∧
      Live.seek stamp e d t (s, []) =
        (e.seek d t, s, ((e.skipped d t).map (skippedRecord e) ++ closing).map .handed)) ∧
    e.Skips d t (e.skipped d t) ∧ e.Reaches d t (e.skipped d t) (e.seek d t) ∧
    ∀ description qs, ∀ delivery ∈ (s.queryLive stamp description qs).deliveries,
      ∃ r : Record, delivery = .handed r ∧ r.level.rank < Level.info.rank := by
  obtain ⟨closing, hrecords, hconcludes⟩ := reportRecords_search e d t
  have hemit : s.emitAll stamp (reportRecords e (e.search d t)) =
      (s, ((e.skipped d t).map (skippedRecord e) ++ closing).map .handed) := by
    rw [emitAll_of_trace hs htrace stamp (reportRecords_detail e _), hrecords]
  refine ⟨⟨closing, hconcludes, ?_, ?_⟩, e.skipped_skips d t, e.skipped_reaches d t,
    queryLive_details hs stamp⟩
  · have hrecorded : (e.ask (.seek d t)).records = reportRecords e (e.search d t) := rfl
    simp only [perform, hrecorded, hemit]
    rfl
  · rw [Live.seek_yields e d t s [], hemit]
    rfl

theorem onTheHour_values : Field.valuesOf .minute "0" = .ok [0] := rfl

theorem everyMonth_values :
    Field.valuesOf .month "*" = .ok [1, 2, 3, 4, 5, 6, 7, 8, 9, 10, 11, 12] := rfl

theorem year2024_values : Field.valuesOf .year "2024" = .ok [2024] := rfl

def fridays2024 : Entry where
  minutes := ⟨"0", [0], onTheHour_values⟩
  hours := ⟨"12", [12], rfl⟩
  days := ⟨"13", [13], rfl⟩
  months := ⟨"*", [1, 2, 3, 4, 5, 6, 7, 8, 9, 10, 11, 12], everyMonth_values⟩
  weekdays := ⟨"5", [5], rfl⟩
  years := ⟨"2024", [2024], year2024_values⟩

def september2024 : Instant :=
  Minute.start { Date.midnight ⟨2024, 9, 13, by decide⟩ with hour := 12, hour_lt := by decide }

def hurriedFridays : Entry := fridays2024.withConfig { maxSteps := 7 }

/-- The first Friday is in September, so a search from the new year on skips eight months. Within
seven steps it skips four. -/
theorem fridays2024_logs :
    Session.tracing.logger.Hands ∧ Session.tracing.logger.level = .trace ∧
    (fridays2024.seek .forward Session.newYear2024 = .ok september2024 ∧
      (Session.tracing.perform ""
          (.ask fridays2024 (.seek .forward Session.newYear2024))).deliveries =
        ((fridays2024.skipped .forward Session.newYear2024).map
          (skippedRecord fridays2024)).map .handed ∧
      (fridays2024.skipped .forward Session.newYear2024).length = 8 ∧
      fridays2024.Covers .forward Session.newYear2024
        (fridays2024.skipped .forward Session.newYear2024) fun u => u.start < september2024) ∧
    hurriedFridays.seek .forward Session.newYear2024 =
      .error (.unreachable hurriedFridays.display 8) ∧
    (hurriedFridays.skipped .forward Session.newYear2024).length = 4 ∧
    ∃ r, (Session.tracing.perform ""
          (.ask hurriedFridays (.seek .forward Session.newYear2024))).deliveries =
        ((hurriedFridays.skipped .forward Session.newYear2024).map
          (skippedRecord hurriedFridays) ++ [r]).map .handed ∧
      Explains hurriedFridays .forward 8 r := by
  have hhands : Session.tracing.logger.Hands := ⟨_, rfl, rfl⟩
  have hseek : fridays2024.seek .forward Session.newYear2024 = .ok september2024 := by
    decide +kernel
  have hcut : hurriedFridays.seek .forward Session.newYear2024 =
      .error (.unreachable hurriedFridays.display 8) := by
    decide +kernel
  obtain ⟨⟨closing, hconcludes, hlogs, -⟩, -, hreaches, -⟩ :=
    Session.seek_logs "" hhands rfl fridays2024 .forward Session.newYear2024
  obtain ⟨⟨closing', hconcludes', hlogs', -⟩, -⟩ :=
    Session.seek_logs "" hhands rfl hurriedFridays .forward Session.newYear2024
  rw [hseek] at hconcludes hreaches
  rw [hcut] at hconcludes'
  obtain rfl : closing = [] := hconcludes
  obtain ⟨r, rfl, hexplains⟩ := hconcludes'
  rw [List.append_nil] at hlogs
  refine ⟨hhands, rfl, ⟨hseek, ?_, by decide +kernel, hreaches.2⟩, hcut, by decide +kernel, r, ?_,
    hexplains⟩
  · rw [hlogs]
  · rw [hlogs']

end CronCalendar.Log
