import CronCalendar.Proofs.Log.Live
import Mathlib.Data.List.DropRight

/-!
# Reading the settings early or late

A logger reads its settings on first use. As long as the variables name the same settings until
then, the moment does not show: every command gives the same result, lets out the same records and
leaves the same level and debug mode to be seen as if the logger had been made ready before all of
them. From there a run only writes to the level and debug mode, and `writes` lists what it writes.
-/

namespace CronCalendar.Log

/-- The command makes the logger ready. An entry does so when it has something to log; where none is
built there is nothing. -/
def Command.uses : Command → Bool
  | .assign _ | .reload => false
  | .query d _ => d.build.isOk
  | .ask e q => (e.ask q).records ≠ []
  | .init | .setLevel _ | .setDebug _ | .log _ | .emit _ => true

structure Sight where
  result : Result
  deliveries : List Delivery
  level : Level
  debug : Bool

namespace Session

variable {stamp : String} {s : Session} {c : Command} {cs as bs : List Command}

def Step.sight (step : Step) : Sight :=
  ⟨step.result, step.deliveries, step.session.ready.logger.level, step.session.ready.logger.debug⟩

def sights (stamp : String) : Session → List Command → List Sight
  | _, [] => []
  | s, c :: cs => (s.perform stamp c).sight :: sights stamp (s.perform stamp c).session cs

def after (stamp : String) : Session → List Command → Session
  | s, [] => s
  | s, c :: cs => after stamp (s.perform stamp c).session cs

/-- Up to the first use of the logger, the variables assigned name the settings that those of the
session do. -/
def Steady (s : Session) (cs : List Command) : Prop :=
  s.logger.settings = none → ∀ env, .assign env ∈ cs.takeWhile (fun c => !c.uses) →
    env.settings = s.environment.settings

theorem ready_of_settings {settings : Settings} (h : s.logger.settings = some settings) :
    s.ready = s := by
  rw [ready, Logger.ready, h]

theorem ready_settings (s : Session) : ∃ settings, s.ready.logger.settings = some settings := by
  cases h : s.logger.settings with
  | some settings => exact ⟨settings, by rw [ready_of_settings h, h]⟩
  | none => exact ⟨s.environment.settings, by simp [ready, Logger.ready, h, Logger.ofSettings]⟩

theorem update_ready {f : Logger → Logger} (hf : ∀ g, (f g).settings = g.settings) (s : Session) :
    s.ready.update f = (s.update f).ready := by
  obtain ⟨settings, hsettings⟩ := s.ready_settings
  have hupdate : s.ready.update f = s.update f := by
    simp only [update, ready, Logger.ready_ready]
  have hready : (s.update f).logger.settings = some settings := (hf _).trans hsettings
  rw [hupdate, ready_of_settings hready]

theorem emitAll_ready (stamp : String) (s : Session) (rs : List Record) :
    s.ready.emitAll stamp rs = ((s.emitAll stamp rs).1.ready, (s.emitAll stamp rs).2) := by
  refine Prod.ext ?_ ?_
  · rw [ready_emitAll]
    unfold emitAll
    split
    · rfl
    · exact s.ready_ready
  · simp only [emitAll_snd, ready_ready]

theorem perform_ready (h : s.Steady (c :: cs)) :
    s.ready.perform stamp c =
      { s.perform stamp c with session := (s.perform stamp c).session.ready } := by
  cases c with
  | assign env =>
    cases hs : s.logger.settings with
    | some settings => simp [perform, ready, Logger.ready, hs]
    | none =>
      have henv : env.settings = s.environment.settings := h hs env (by simp [Command.uses])
      simp [perform, ready, Logger.ready, hs, henv]
  | init => rfl
  | setLevel level => simp only [perform, update_ready (f := Logger.setLevel level) fun _ => rfl]
  | setDebug enabled =>
    simp only [perform, update_ready (f := Logger.setDebug enabled) fun _ => rfl]
  | reload =>
    cases hs : s.logger.settings with
    | some settings => simp [perform, ready, Logger.ready, hs, Logger.publish]
    | none => simp [perform, ready, Logger.ready, hs, Logger.publish, Logger.ofSettings]
  | log r => simp only [perform, ready_ready]
  | emit r => simp only [perform, ready_ready]
  | query d qs =>
    simp only [perform, query]
    cases d.build with
    | error error => rfl
    | ok e => simp only [emitAll_ready]
  | ask e q => simp only [perform, emitAll_ready]

theorem perform_uses (stamp : String) (s : Session) (h : c.uses = true) :
    ∃ settings, (s.perform stamp c).session.logger.settings = some settings := by
  cases c with
  | assign env => cases h
  | reload => cases h
  | query d qs =>
    simp only [perform, query]
    cases hbuild : d.build with
    | error error =>
      rw [Command.uses, hbuild] at h
      cases h
    | ok e =>
      simp only [Description.records, hbuild, emitAll, List.cons_append, reduceCtorEq, if_false]
      exact s.ready_settings
  | ask e q =>
    have hrecords : (e.ask q).records ≠ [] := of_decide_eq_true h
    simp only [perform, emitAll, hrecords, if_false]
    exact s.ready_settings
  | init => exact s.ready_settings
  | setLevel level => exact s.ready_settings
  | setDebug enabled => exact s.ready_settings
  | log r => exact s.ready_settings
  | emit r => exact s.ready_settings

theorem Steady.step (h : s.Steady (c :: cs)) : (s.perform stamp c).session.Steady cs := by
  cases huses : c.uses with
  | true =>
    intro hs
    obtain ⟨settings, hsettings⟩ := perform_uses stamp s huses
    rw [hsettings] at hs
    cases hs
  | false =>
    have hlater : s.logger.settings = none → ∀ env,
        .assign env ∈ cs.takeWhile (fun c => !c.uses) → env.settings = s.environment.settings := by
      intro hs env henv
      refine h hs env ?_
      rw [List.takeWhile_cons, huses]
      exact List.mem_cons_of_mem c henv
    cases c with
    | assign env =>
      intro hs env' henv'
      have hsame : env.settings = s.environment.settings := h hs env (by simp [Command.uses])
      exact (hlater hs env' henv').trans hsame.symm
    | reload => exact hlater
    | query d qs =>
      rw [perform, query]
      cases hbuild : d.build with
      | error error => exact hlater
      | ok e =>
        rw [Command.uses, hbuild] at huses
        cases huses
    | ask e q =>
      have hrecords : (e.ask q).records = [] := Decidable.not_not.mp (of_decide_eq_false huses)
      simp only [perform, emitAll, hrecords, if_true]
      exact hlater
    | init => cases huses
    | setLevel level => cases huses
    | setDebug enabled => cases huses
    | log r => cases huses
    | emit r => cases huses

theorem sight_ready (step : Step) : ({ step with session := step.session.ready } : Step).sight =
    step.sight := by
  simp only [Step.sight, ready_ready]

theorem sights_ready (h : s.Steady cs) : s.ready.sights stamp cs = s.sights stamp cs := by
  induction cs generalizing s with
  | nil => rfl
  | cons c cs ih => simp only [sights, perform_ready h, sight_ready, ih h.step]

theorem after_ready (h : s.Steady (as ++ bs)) :
    (s.after stamp as).ready = s.ready.after stamp as := by
  induction as generalizing s with
  | nil => rfl
  | cons c as ih =>
    rw [List.cons_append] at h
    simp only [after, perform_ready h, ih h.step]

theorem sights_init (h : s.Steady (as ++ bs)) :
    s.sights stamp (as ++ .init :: bs) =
      (s.sights stamp (as ++ bs)).insertIdx as.length
        ⟨.nothing, [], (s.after stamp as).ready.logger.level,
          (s.after stamp as).ready.logger.debug⟩ := by
  induction as generalizing s with
  | nil =>
    have hsight : (s.perform stamp .init).sight =
        ⟨.nothing, [], s.ready.logger.level, s.ready.logger.debug⟩ := by
      simp only [perform, Step.sight, ready_ready]
    simp only [List.nil_append, sights, hsight, List.length_nil, List.insertIdx_zero, after]
    exact congrArg _ (sights_ready h)
  | cons c as ih =>
    rw [List.cons_append] at h
    simp only [List.cons_append, sights, after, ih h.step, List.length_cons,
      List.insertIdx_succ_cons]

end Session

def Level.atMostDebug (level : Level) : Level :=
  if Level.debug.rank < level.rank then .debug else level

theorem Level.atMostDebug_atMostDebug (level : Level) :
    level.atMostDebug.atMostDebug = level.atMostDebug := by
  cases level <;> rfl

theorem Logger.setDebug_eq (enabled : Bool) (g : Logger) :
    g.setDebug enabled =
      ⟨g.settings, if enabled then g.level.atMostDebug else g.level, enabled⟩ := by
  cases enabled <;> simp [Logger.setDebug, Level.atMostDebug]

inductive Write where
  | level (level : Level)
  | debug (enabled : Bool)
  | publish (s : Settings)
deriving DecidableEq

namespace Write

def apply (g : Logger) : Write → Logger
  | level l => g.setLevel l
  | debug enabled => g.setDebug enabled
  | publish s => g.publish s

def level? : Write → Option Level
  | level l => some l
  | debug _ => none
  | publish s => some s.level

def debug? : Write → Option Bool
  | level _ => none
  | debug enabled => some enabled
  | publish s => some s.debug

end Write

namespace Command

def writes (env : Environment) : Command → List Write
  | setLevel level => [.level level]
  | setDebug enabled => [.debug enabled]
  | reload => [.publish env.settings]
  | assign _ | init | log _ | emit _ | query _ _ | ask _ _ => []

def leaves (env : Environment) : Command → Environment
  | assign env => env
  | setLevel _ | setDebug _ | reload | init | log _ | emit _ | query _ _ | ask _ _ => env

end Command

def writes : Environment → List Command → List Write
  | _, [] => []
  | env, c :: cs => c.writes env ++ writes (c.leaves env) cs

def lastDebug (debug : Bool) (ws : List Write) : Bool := (ws.filterMap Write.debug?).getLastD debug

/-- The level written last, or the given one; at most `debug` if debug mode was turned on since. -/
def lastLevel (level : Level) (ws : List Write) : Level :=
  let written := (ws.filterMap Write.level?).getLastD level
  if .debug true ∈ ws.rtakeWhile (·.level?.isNone) then written.atMostDebug else written

theorem lastDebug_concat (debug : Bool) (ws : List Write) (w : Write) :
    lastDebug debug (ws ++ [w]) = w.debug?.getD (lastDebug debug ws) := by
  rw [lastDebug, List.filterMap_append]
  cases h : w.debug? with
  | none => simp [h, lastDebug]
  | some enabled => simp [h]

theorem lastLevel_concat {w : Write} {level' : Level} (h : w.level? = some level') (level : Level)
    (ws : List Write) : lastLevel level (ws ++ [w]) = level' := by
  have hsince : (ws ++ [w]).rtakeWhile (·.level?.isNone) = [] :=
    List.rtakeWhile_concat_neg _ _ _ (by simp [h])
  simp [lastLevel, hsince, h]

theorem lastLevel_concat_debug (level : Level) (ws : List Write) (enabled : Bool) :
    lastLevel level (ws ++ [.debug enabled]) =
      if enabled then (lastLevel level ws).atMostDebug else lastLevel level ws := by
  have hsince : (ws ++ [Write.debug enabled]).rtakeWhile (·.level?.isNone) =
      ws.rtakeWhile (·.level?.isNone) ++ [Write.debug enabled] :=
    List.rtakeWhile_concat_pos _ _ _ rfl
  have hwritten : (ws ++ [Write.debug enabled]).filterMap Write.level? =
      ws.filterMap Write.level? := by
    simp [Write.level?]
  simp only [lastLevel, hsince, hwritten, List.mem_append, List.mem_singleton]
  cases enabled with
  | false => simp
  | true =>
    by_cases hturned : Write.debug true ∈ ws.rtakeWhile (·.level?.isNone)
    · simp [hturned, Level.atMostDebug_atMostDebug]
    · simp [hturned]

theorem foldl_apply (g : Logger) (ws : List Write) :
    ws.foldl Write.apply g = ⟨g.settings, lastLevel g.level ws, lastDebug g.debug ws⟩ := by
  induction ws using List.reverseRecOn with
  | nil => simp [lastLevel, lastDebug]
  | append_singleton ws w ih =>
    rw [List.foldl_append, ih, lastDebug_concat]
    cases w with
    | level l =>
      rw [lastLevel_concat (w := .level l) rfl]
      rfl
    | debug enabled =>
      rw [lastLevel_concat_debug, List.foldl_cons, List.foldl_nil, Write.apply, Logger.setDebug_eq]
      rfl
    | publish s =>
      rw [lastLevel_concat (w := .publish s) rfl]
      rfl

namespace Session

variable {stamp : String} {s : Session} {settings : Settings}

theorem perform_of_settings (hs : s.logger.settings = some settings) (c : Command) :
    (s.perform stamp c).session =
      ⟨c.leaves s.environment, (c.writes s.environment).foldl Write.apply s.logger⟩ := by
  have hready : s.ready = s := ready_of_settings hs
  have hlogger : s.logger.ready s.environment = s.logger := congrArg Session.logger hready
  cases c with
  | assign env => rfl
  | init => exact hready
  | setLevel level => simp only [perform, update, hlogger]; rfl
  | setDebug enabled => simp only [perform, update, hlogger]; rfl
  | reload => rfl
  | log r => exact hready
  | emit r => exact hready
  | query d qs =>
    simp only [perform, query]
    cases d.build with
    | error error => rfl
    | ok e => exact emitAll_fst hready stamp _
  | ask e q => exact emitAll_fst hready stamp _

theorem after_logger (hs : s.logger.settings = some settings) (cs : List Command) :
    (s.after stamp cs).logger = (writes s.environment cs).foldl Write.apply s.logger := by
  induction cs generalizing s with
  | nil => rfl
  | cons c cs ih =>
    have hsettings : ((c.writes s.environment).foldl Write.apply s.logger).settings =
        some settings := by
      rw [foldl_apply, hs]
    rw [after, perform_of_settings hs, writes, List.foldl_append]
    exact ih hsettings

/-- Reading the settings on first use is as good as reading them before, or at any moment between:
the settings in use are those that the first variables name, and the level and debug mode are the
ones written last. -/
theorem fresh_initialised (stamp : String) (env : Environment) (cs : List Command)
    (h : (fresh env).Steady cs) :
    (fresh env).sights stamp cs = Session.sights stamp ⟨env, .ofSettings env.settings⟩ cs ∧
    ∀ as bs, cs = as ++ bs →
      ((fresh env).after stamp as).ready.logger =
        ⟨some env.settings, lastLevel env.settings.level (writes env as),
          lastDebug env.settings.debug (writes env as)⟩ ∧
      (fresh env).sights stamp (as ++ .init :: bs) =
        ((fresh env).sights stamp cs).insertIdx as.length
          ⟨.nothing, [], lastLevel env.settings.level (writes env as),
            lastDebug env.settings.debug (writes env as)⟩ := by
  refine ⟨(sights_ready h).symm, ?_⟩
  rintro as bs rfl
  have hlogger : ((fresh env).after stamp as).ready.logger =
      ⟨some env.settings, lastLevel env.settings.level (writes env as),
        lastDebug env.settings.debug (writes env as)⟩ := by
    rw [after_ready h, after_logger (s := (fresh env).ready) rfl, foldl_apply]
    rfl
  refine ⟨hlogger, ?_⟩
  rw [sights_init h, hlogger]

def quiet : Environment := [("CRONWALK_LOG_LEVEL", "error"), ("CRONWALK_LOG_FORMAT", "facade")]

def readings : List Command :=
  [.assign (("HOME", "/") :: quiet), .reload, .setLevel .info,
    .assign [("CRONWALK_LOG_LEVEL", "off"), ("CRONWALK_LOG_FORMAT", "json")], .reload,
    .setDebug true]

theorem readings_steady : (fresh quiet).Steady readings := by
  have hunused : readings.takeWhile (fun c => !c.uses) =
      [.assign (("HOME", "/") :: quiet), .reload] := rfl
  intro _ env henv
  rw [hunused] at henv
  obtain rfl : env = ("HOME", "/") :: quiet := by simpa using henv
  decide +kernel

theorem readings_initialised :
    (fresh quiet).Steady readings ∧
    (fresh quiet).sights "" readings =
      Session.sights "" ⟨quiet, .ofSettings quiet.settings⟩ readings ∧
    ((fresh quiet).after "" readings).ready.logger =
      ⟨some { level := .error, layout := .facade }, .debug, true⟩ := by
  obtain ⟨hsights, hinsert⟩ := fresh_initialised "" quiet readings readings_steady
  have hlogger := (hinsert readings [] (List.append_nil readings).symm).1
  refine ⟨readings_steady, hsights, hlogger.trans ?_⟩
  decide +kernel

end Session

end CronCalendar.Log
