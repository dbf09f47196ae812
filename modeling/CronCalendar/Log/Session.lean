import CronCalendar.Log.Logger
import CronCalendar.Query

/-!
# Sessions

A session is an environment of variables and a logger that may or may not have read it. Commands run
one after another; each gives a result and the records that it let out. Reading the level or debug
mode makes the logger ready like any other use of it, which is what `Session.ready` is for.
-/

namespace CronCalendar.Log

inductive Command where
  | assign (env : Environment)
  | init
  | setLevel (level : Level)
  | setDebug (enabled : Bool)
  | reload
  | log (r : Record)
  | emit (r : Record)
  | query (d : Description) (qs : List Query)
  | ask (e : Entry) (q : Query)

inductive Result where
  | nothing
  | settings (s : Settings)
  | answers (as : Except BuildError (List Answer))

structure Session where
  environment : Environment
  logger : Logger

namespace Session

def fresh (env : Environment) : Session := ⟨env, {}⟩

def ofSettings (s : Settings) : Session := ⟨[], .ofSettings s⟩

def ready (s : Session) : Session := { s with logger := s.logger.ready s.environment }

def update (f : Logger → Logger) (s : Session) : Session :=
  { s with logger := f (s.logger.ready s.environment) }

/-- Offers the records to the logger in order; the first makes it ready. -/
def emitAll (stamp : String) (s : Session) (rs : List Record) : Session × List Delivery :=
  if rs = [] then (s, [])
  else (s.ready, rs.flatMap (s.ready.logger.emit stamp))

structure Step where
  result : Result
  deliveries : List Delivery
  session : Session

def query (stamp : String) (s : Session) (d : Description) (qs : List Query) : Step :=
  match d.build with
  | .error error => ⟨.answers (.error error), [], s⟩
  | .ok e =>
    let replies := e.askAll qs
    let (s, deliveries) := s.emitAll stamp (d.records ++ replies.flatMap (·.records))
    ⟨.answers (.ok (replies.map (·.answer))), deliveries, s⟩

def perform (stamp : String) (s : Session) : Command → Step
  | .assign env => ⟨.nothing, [], { s with environment := env }⟩
  | .init => ⟨.nothing, [], s.ready⟩
  | .setLevel level => ⟨.nothing, [], s.update (Logger.setLevel level)⟩
  | .setDebug enabled => ⟨.nothing, [], s.update (Logger.setDebug enabled)⟩
  | .reload =>
    let settings := s.environment.settings
    ⟨.settings settings, [], { s with logger := s.logger.publish settings }⟩
  | .log r =>
    let s := s.ready
    ⟨.nothing, s.logger.log stamp r, s⟩
  | .emit r =>
    let s := s.ready
    ⟨.nothing, s.logger.emit stamp r, s⟩
  | .query d qs => s.query stamp d qs
  | .ask e q =>
    let reply := e.ask q
    let (s, deliveries) := s.emitAll stamp reply.records
    ⟨.answers (.ok [reply.answer]), deliveries, s⟩

end Session

end CronCalendar.Log
