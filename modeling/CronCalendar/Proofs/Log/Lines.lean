import CronCalendar.Proofs.Log.Filter
import CronCalendar.Proofs.Log.Initialisation
import CronCalendar.Proofs.Text.Json

/-!
# Logs in JSON

In the JSON layout a log is a text that can be read again. Every record that was enabled when it
came up is one line, no line holds a line break or another control, and read as JSON it gives the
record back. A message that itself looks like lines of a log changes nothing in that, nor do changes
of the level between records.
-/

namespace CronCalendar.Log

def Command.records : Command → List Record
  | .log r | .emit r => [r]
  | .query d qs => offers d qs
  | .ask e q => (e.ask q).records
  | .assign _ | .init | .setLevel _ | .setDebug _ | .reload => []

def Command.assigns : Command → Bool
  | .assign _ => true
  | _ => false

def Delivery.text : Delivery → List Char
  | .handed _ => []
  | .written text => text.toList

namespace Record

def members (stamp : String) (r : Record) : List (String × String) :=
  [("timestamp", stamp), ("level", r.level.name), ("target", r.target), ("message", r.message)]

def line (stamp : String) (r : Record) : List Char := Json.objectText (r.members stamp)

theorem json_toList (stamp : String) (r : Record) :
    (r.json stamp).toList = r.line stamp ++ ['\n'] := by
  have htimestamp : (Text.quote "timestamp").toList = "\"timestamp\"".toList := by decide +kernel
  have hlevel : (Text.quote "level").toList = "\"level\"".toList := by decide +kernel
  have htarget : (Text.quote "target").toList = "\"target\"".toList := by decide +kernel
  have hmessage : (Text.quote "message").toList = "\"message\"".toList := by decide +kernel
  simp only [line, members, Json.objectText, Json.membersText, Json.memberText, List.map_cons,
    List.map_nil, List.intercalate_cons_cons, List.intercalate_singleton, htimestamp, hlevel, htarget,
    hmessage]
  unfold json
  -- the quoted texts stand between literal pieces that are the same on both sides
  generalize Text.quote stamp = stamp
  generalize Text.quote r.level.name = level
  generalize Text.quote r.target = target
  generalize Text.quote r.message = message
  simp

theorem decode_line (stamp : String) (r : Record) :
    Json.decode (r.line stamp) = some (.object [("timestamp", .string stamp),
      ("level", .string r.level.name), ("target", .string r.target),
      ("message", .string r.message)]) :=
  Json.decode_objectText (List.cons_ne_nil _ _)

end Record

namespace Logger

variable {g : Logger} {settings : Settings}

theorem emit_eq_log (stamp : String) (g : Logger) (r : Record) : g.emit stamp r = g.log stamp r := by
  unfold emit log
  rw [wants_eq]
  cases g.settings <;> simp

theorem flatMap_log (h : g.settings = some settings) (stamp : String) (rs : List Record) :
    rs.flatMap (g.log stamp) =
      (rs.filter fun r => g.recordEnabled r.level).map (deliver stamp settings) := by
  induction rs with
  | nil => rfl
  | cons r rs ih =>
    rw [List.flatMap_cons, ih, List.filter_cons]
    simp only [log, h]
    split <;> rfl

theorem deliver_text (hjson : settings.layout = .json) (stamp : String) (r : Record) :
    (deliver stamp settings r).text = r.line stamp ++ ['\n'] := by
  rw [deliver, hjson]
  exact r.json_toList stamp

end Logger

namespace Session

variable {s : Session} {settings : Settings} {c : Command}

theorem perform_deliveries (h : s.ready.logger.settings = some settings) (stamp : String)
    (c : Command) : (s.perform stamp c).deliveries =
      (c.records.filter fun r => s.ready.logger.recordEnabled r.level).map
        (Logger.deliver stamp settings) := by
  rw [← Logger.flatMap_log h]
  have hemit : s.ready.logger.emit stamp = s.ready.logger.log stamp :=
    funext (Logger.emit_eq_log stamp s.ready.logger)
  cases c with
  | assign env => rfl
  | init => rfl
  | setLevel level => rfl
  | setDebug enabled => rfl
  | reload => rfl
  | log r => simp [perform, Command.records]
  | emit r => simp [perform, Command.records, hemit]
  | query d qs =>
    simp only [perform, query, Command.records, offers]
    cases d.build with
    | error error => rfl
    | ok e => simp only [emitAll_snd, hemit]
  | ask e q => simp only [perform, emitAll_snd, Command.records, hemit]

theorem update_settings {f : Logger → Logger} (hf : ∀ g, (f g).settings = g.settings) (s : Session) :
    (s.update f).ready.logger.settings = s.ready.logger.settings := by
  rw [← update_ready hf]
  exact (hf _).trans (by simp only [ready, Logger.ready_ready])

theorem perform_settings (hc : c.assigns = false) (stamp : String) (s : Session) :
    (s.perform stamp c).session.ready.logger.settings = s.ready.logger.settings := by
  cases c with
  | assign env => cases hc
  | init => rw [perform, ready_ready]
  | setLevel level => exact update_settings (f := Logger.setLevel level) (fun _ => rfl) s
  | setDebug enabled => exact update_settings (f := Logger.setDebug enabled) (fun _ => rfl) s
  | reload =>
    cases hs : s.logger.settings with
    | some settings => simp [perform, ready, Logger.ready, hs, Logger.publish]
    | none => simp [perform, ready, Logger.ready, hs, Logger.publish, Logger.ofSettings]
  | log r => rw [perform, ready_ready]
  | emit r => rw [perform, ready_ready]
  | query d qs =>
    simp only [perform, query]
    cases d.build with
    | error error => rfl
    | ok e => simp only [ready_emitAll]
  | ask e q => simp only [perform, ready_emitAll]

def written : Session → List (String × Command) → List Char
  | _, [] => []
  | s, (stamp, c) :: run =>
    (s.perform stamp c).deliveries.flatMap Delivery.text ++ written (s.perform stamp c).session run

/-- The records that were enabled when they came up, with their times. -/
def passed : Session → List (String × Command) → List (String × Record)
  | _, [] => []
  | s, (stamp, c) :: run =>
    (c.records.filter fun r => s.ready.logger.recordEnabled r.level).map (stamp, ·) ++
      passed (s.perform stamp c).session run

theorem written_eq (hsettings : s.ready.logger.settings = some settings)
    (hjson : settings.layout = .json) {run : List (String × Command)}
    (hrun : ∀ step ∈ run, step.2.assigns = false) :
    s.written run = ((s.passed run).map fun (stamp, r) => r.line stamp).flatMap (· ++ ['\n']) := by
  induction run generalizing s with
  | nil => rfl
  | cons step run ih =>
    obtain ⟨stamp, c⟩ := step
    obtain ⟨hc, hrun⟩ := List.forall_mem_cons.mp hrun
    -- the command leaves the settings, so the rest of the run is in the same layout
    have hrest := ih ((perform_settings hc stamp s).trans hsettings) hrun
    rw [written, passed, perform_deliveries hsettings, hrest]
    simp [List.flatMap_map, Logger.deliver_text hjson]

/-- A log in JSON is cut into one line for each record that was enabled when it came up, in their
order, and each line is read as its record. -/
theorem written_decodes (hsettings : s.ready.logger.settings = some settings)
    (hjson : settings.layout = .json) {run : List (String × Command)}
    (hrun : ∀ step ∈ run, step.2.assigns = false) :
    ∃ lines, (s.written run).splitOn '\n' = lines ++ [[]] ∧
      (∀ line ∈ lines, ∀ c ∈ line, 0x20 ≤ c.toNat) ∧
      lines.map Json.decode = (s.passed run).map fun (stamp, r) =>
        some (.object [("timestamp", .string stamp), ("level", .string r.level.name),
          ("target", .string r.target), ("message", .string r.message)]) := by
  have hprintable : ∀ line ∈ (s.passed run).map fun (stamp, r) => r.line stamp,
      ∀ c ∈ line, 0x20 ≤ c.toNat := by
    intro line hline
    obtain ⟨⟨stamp, r⟩, -, rfl⟩ := List.mem_map.mp hline
    exact Json.objectText_printable _
  refine ⟨(s.passed run).map fun (stamp, r) => r.line stamp, ?_, hprintable, ?_⟩
  · rw [written_eq hsettings hjson hrun]
    apply Text.splitOn_ended
    intro line hline hbreak
    exact absurd (hprintable line hline _ hbreak) (by decide)
  · rw [List.map_map]
    apply List.map_congr_left
    intro (stamp, r) _
    rw [Function.comp_apply, Record.decode_line]

def forged : Record := ⟨.error, "a\"b", "x\"\x7d\n\x7b\"level\":\"INFO\",\\u0041\x00"⟩

def forgedRun : List (String × Command) :=
  [("12:00", .log forged), ("12:01", .emit ⟨.debug, "", "unseen"⟩), ("12:02", .setDebug true),
    ("12:03", .setLevel .off), ("12:04", .log forged), ("12:05", .emit ⟨.debug, "", "seen"⟩)]

theorem forgedRun_decodes :
    (Session.ofSettings { layout := .json }).ready.logger.settings = some { layout := .json } ∧
    (∀ step ∈ forgedRun, step.2.assigns = false) ∧
    ∃ first second, ((Session.ofSettings { layout := .json }).written forgedRun).splitOn '\n' =
        [first, second, []] ∧
      Json.decode first = some (.object [("timestamp", .string "12:00"),
        ("level", .string "ERROR"), ("target", .string "a\"b"),
        ("message", .string "x\"\x7d\n\x7b\"level\":\"INFO\",\\u0041\x00")]) ∧
      Json.decode second = some (.object [("timestamp", .string "12:05"),
        ("level", .string "DEBUG"), ("target", .string ""), ("message", .string "seen")]) := by
  have hrun : ∀ step ∈ forgedRun, step.2.assigns = false := by decide
  have hpassed : (Session.ofSettings { layout := .json }).passed forgedRun =
      [("12:00", forged), ("12:05", ⟨.debug, "", "seen"⟩)] := by decide +kernel
  obtain ⟨lines, hsplit, -, hdecode⟩ :=
    written_decodes (s := .ofSettings { layout := .json }) rfl rfl hrun
  rw [hpassed] at hdecode
  have hlength : lines.length = 2 := by
    rw [← List.length_map Json.decode, hdecode, List.length_map]
    rfl
  obtain ⟨first, second, rfl⟩ := List.length_eq_two.mp hlength
  obtain ⟨hfirst, hdecode⟩ := List.cons.inj hdecode
  obtain ⟨hsecond, -⟩ := List.cons.inj hdecode
  exact ⟨rfl, hrun, first, second, hsplit, hfirst, hsecond⟩

end Session

end CronCalendar.Log
