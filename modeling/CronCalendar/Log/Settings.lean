import CronCalendar.Log.Record

/-!
# Logger settings

Settings are read from variables. A flag is on when its variable is `1` or, in any case of its
letters, `true`; it is off when the variable holds anything else, and at its default when it is
missing. A level or layout that cannot be read is ignored; without a level, debug mode sets it to
`debug`.
-/

namespace CronCalendar.Log

structure Settings where
  debug : Bool := false
  level : Level := .warn
  layout : Layout := .pretty
  timestamps : Bool := true
  targets : Bool := true
deriving DecidableEq, Repr

namespace Settings

def isOn (text : String) : Bool :=
  text == "1" || text.toList.map Char.toLower == "true".toList

def ofLookup (lookup : String → Option String) : Settings :=
  let flag (name : String) (default : Bool) : Bool :=
    match lookup name with
    | some text => isOn text
    | none => default
  let debug := flag "CRONWALK_DEBUG" false
  { debug
    level := ((lookup "CRONWALK_LOG_LEVEL").bind Level.parse?).getD (if debug then .debug else .warn)
    layout := ((lookup "CRONWALK_LOG_FORMAT").bind Layout.parse?).getD .pretty
    timestamps := flag "CRONWALK_LOG_TIMESTAMPS" true
    targets := flag "CRONWALK_LOG_MODULE" true }

end Settings

end CronCalendar.Log
