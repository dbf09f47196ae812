import CronCalendar.Log.Settings

/-!
# The logger

The logger reads its settings from the environment on first use and keeps them; only the level and
debug mode can change afterwards. Before that first use its level is `warn` and debug mode is off,
but no operation other than `reload` acts on a logger that has not read its settings: each one makes
it ready first.

A record passes when its level is enabled. Debug records also pass in debug mode, whatever the level
is set to.
-/

namespace CronCalendar.Log

abbrev Environment := List (String × String)

def Environment.settings (env : Environment) : Settings :=
  Settings.ofLookup fun name => List.lookup name env

inductive Delivery where
  | handed (r : Record)
  | written (text : String)
deriving DecidableEq, Repr

structure Logger where
  settings : Option Settings := none
  level : Level := .warn
  debug : Bool := false
deriving DecidableEq, Repr

namespace Logger

def ofSettings (s : Settings) : Logger := ⟨some s, s.level, s.debug⟩

def ready (env : Environment) (g : Logger) : Logger :=
  match g.settings with
  | some _ => g
  | none => ofSettings env.settings

def levelEnabled (g : Logger) (level : Level) : Bool :=
  level ≠ .off && g.level.rank ≤ level.rank

def recordEnabled (g : Logger) (level : Level) : Bool :=
  g.levelEnabled level || (level = .debug && g.debug)

def setLevel (level : Level) (g : Logger) : Logger := { g with level }

def setDebug (enabled : Bool) (g : Logger) : Logger :=
  { g with
    debug := enabled
    level := if enabled ∧ Level.debug.rank < g.level.rank then .debug else g.level }

/-- Publishes the level and debug mode of `s`; the settings in use stay as they are. -/
def publish (s : Settings) (g : Logger) : Logger := { g with level := s.level, debug := s.debug }

def deliver (stamp : String) (s : Settings) (r : Record) : Delivery :=
  match s.layout with
  | .pretty => .written (r.pretty (if s.timestamps then some stamp else none) s.targets)
  | .compact => .written (r.compact (if s.timestamps then some stamp else none) s.targets)
  | .json => .written (r.json stamp)
  | .facade => .handed r

def log (stamp : String) (g : Logger) (r : Record) : List Delivery :=
  match g.settings with
  | some s => if g.recordEnabled r.level then [deliver stamp s r] else []
  | none => []

def wants (g : Logger) : Level → Bool
  | .debug => g.recordEnabled .debug
  | level => g.levelEnabled level

def emit (stamp : String) (g : Logger) (r : Record) : List Delivery :=
  if g.wants r.level then g.log stamp r else []

end Logger

end CronCalendar.Log
