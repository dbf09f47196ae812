import CronCalendar.Proofs.Log.Live

/-!
# What a logger lets through

A logger that hands records on looks at nothing but their levels. Entries log details only, so at
level `trace` it lets everything through that they log, and in any other state a part of that, in
the same order. What it lets through has no bearing on the answers, and the session stays as it was.
-/

namespace CronCalendar.Log

def Record.IsDetail (r : Record) : Prop := r.level.rank < Level.info.rank

theorem parsedRecord_detail (e : Entry) : (parsedRecord e).IsDetail := by
  change Level.debug.rank < Level.info.rank
  decide

theorem endedRecord_detail (e : Entry) (error : SearchError) : (endedRecord e error).IsDetail := by
  change Level.debug.rank < Level.info.rank
  decide

theorem reportRecords_detail (e : Entry) (report : Search.Report) :
    ∀ r ∈ reportRecords e report, r.IsDetail := by
  intro r hr
  obtain ⟨event, -, rfl⟩ := List.mem_map.mp hr
  unfold Record.IsDetail
  cases event <;> simp [eventRecord, Level.rank]

theorem stepRecords_detail (e : Entry) (report : Search.Report) :
    ∀ r ∈ stepRecords e report, r.IsDetail := by
  intro r hr
  rcases List.mem_append.mp hr with hr | hr
  · exact reportRecords_detail e report r hr
  · generalize report.outcome.answer e.display = answer at hr
    cases answer with
    | ok trigger => cases hr
    | error error =>
      rw [List.mem_singleton.mp hr]
      exact endedRecord_detail e error

theorem callRecords_detail (c : Triggers) : ∀ r ∈ Live.callRecords c, r.IsDetail := by
  unfold Live.callRecords
  cases c.next.2.1 with
  | none => exact List.forall_mem_nil _
  | some report => exact stepRecords_detail _ report

theorem take_detail (n : Nat) (c : Triggers) : ∀ r ∈ (c.take n).2, r.IsDetail := by
  induction n generalizing c with
  | zero => exact List.forall_mem_nil _
  | succ n ih =>
    rw [Live.take_succ]
    exact List.forall_mem_append.mpr ⟨callRecords_detail c, ih c.next.2.2⟩

theorem tour_detail (e : Entry) (t : Instant) (moves : List Direction) :
    ∀ r ∈ (e.tour t moves).2, r.IsDetail := by
  induction moves generalizing t with
  | nil => exact List.forall_mem_nil _
  | cons d moves ih =>
    exact List.forall_mem_append.mpr ⟨reportRecords_detail e _, ih _⟩

theorem ask_detail (e : Entry) (q : Query) : ∀ r ∈ (e.ask q).records, r.IsDetail := by
  cases q with
  | seek d t => exact reportRecords_detail e _
  | fires t => exact List.forall_mem_nil _
  | series d t count => exact take_detail count _
  | tour t moves => exact tour_detail e t moves
  | configure config => exact List.forall_mem_nil _
  | field kind => exact List.forall_mem_nil _

theorem askAll_detail (e : Entry) (qs : List Query) :
    ∀ r ∈ (e.askAll qs).flatMap (·.records), r.IsDetail := by
  induction qs generalizing e with
  | nil => exact List.forall_mem_nil _
  | cons q qs ih =>
    exact List.forall_mem_append.mpr ⟨ask_detail e q, ih _⟩

def offers (d : Description) (qs : List Query) : List Record :=
  match d.build with
  | .ok e => d.records ++ (e.askAll qs).flatMap (·.records)
  | .error _ => []

theorem offers_detail (d : Description) (qs : List Query) : ∀ r ∈ offers d qs, r.IsDetail := by
  unfold offers Description.records
  cases d.build with
  | error error => exact List.forall_mem_nil _
  | ok e =>
    exact List.forall_mem_cons.mpr ⟨parsedRecord_detail e, askAll_detail e qs⟩

namespace Logger

def Hands (g : Logger) : Prop := ∃ settings, g.settings = some settings ∧ settings.layout = .facade

variable {g : Logger}

theorem wants_eq (g : Logger) (level : Level) : g.wants level = g.recordEnabled level := by
  cases level <;> simp [wants, recordEnabled]

theorem Hands.ready (h : g.Hands) (env : Environment) : g.ready env = g := by
  obtain ⟨settings, hsettings, -⟩ := h
  rw [Logger.ready, hsettings]

theorem Hands.emit (h : g.Hands) (stamp : String) (r : Record) :
    g.emit stamp r = if g.recordEnabled r.level then [.handed r] else [] := by
  obtain ⟨settings, hsettings, hlayout⟩ := h
  simp only [Logger.emit, wants_eq, log, hsettings, deliver, hlayout]
  split <;> rfl

theorem Hands.flatMap_emit (h : g.Hands) (stamp : String) (rs : List Record) :
    rs.flatMap (g.emit stamp) = (rs.filter fun r => g.recordEnabled r.level).map .handed := by
  induction rs with
  | nil => rfl
  | cons r rs ih =>
    rw [List.flatMap_cons, ih, h.emit, List.filter_cons]
    split <;> rfl

theorem recordEnabled_of_trace (h : g.level = .trace) {r : Record} (hr : r.IsDetail) :
    g.recordEnabled r.level = true := by
  have hoff : r.level ≠ .off := by
    intro hoff
    rw [Record.IsDetail, hoff] at hr
    exact absurd hr (by decide)
  simp [recordEnabled, levelEnabled, h, hoff, Level.rank]

end Logger

namespace Session

variable {s : Session}

theorem emitAll_of_hands (h : s.logger.Hands) (stamp : String) (rs : List Record) :
    s.emitAll stamp rs =
      (s, (rs.filter fun r => s.logger.recordEnabled r.level).map .handed) := by
  have hready : s.ready = s := by
    rw [ready, h.ready]
  exact Prod.ext (emitAll_fst hready stamp rs) (by rw [emitAll_snd, hready, h.flatMap_emit])

theorem emitAll_of_trace (h : s.logger.Hands) (htrace : s.logger.level = .trace) (stamp : String)
    {rs : List Record} (hdetail : ∀ r ∈ rs, r.IsDetail) :
    s.emitAll stamp rs = (s, rs.map .handed) := by
  have hfilter : (rs.filter fun r => s.logger.recordEnabled r.level) = rs :=
    List.filter_eq_self.mpr fun r hr => Logger.recordEnabled_of_trace htrace (hdetail r hr)
  rw [emitAll_of_hands h, hfilter]

theorem query_of_hands (h : s.logger.Hands) (stamp : String) (d : Description) (qs : List Query) :
    s.query stamp d qs =
      ⟨.answers (d.build.map fun e => (e.askAll qs).map (·.answer)),
        ((offers d qs).filter fun r => s.logger.recordEnabled r.level).map .handed, s⟩ := by
  unfold query offers
  cases hbuild : d.build with
  | error error => rfl
  | ok e =>
    simp only [emitAll_of_hands h]
    rfl

theorem queryLive_details (h : s.logger.Hands) (stamp : String) (d : Description)
    (qs : List Query) :
    ∀ delivery ∈ (s.queryLive stamp d qs).deliveries,
      ∃ r : Record, delivery = .handed r ∧ r.IsDetail := by
  intro delivery hdelivery
  rw [queryLive_eq, query_of_hands h] at hdelivery
  obtain ⟨r, hr, rfl⟩ := List.mem_map.mp hdelivery
  exact ⟨r, rfl, offers_detail d qs r (List.mem_filter.mp hr).1⟩

/-- The state of the logger decides which of the records come through and nothing else. -/
theorem queryLive_filters (stamp : String) {s s' : Session} (hs : s.logger.Hands)
    (hs' : s'.logger.Hands) (d : Description) (qs : List Query) :
    s.queryLive stamp d qs = s.query stamp d qs ∧
    (s.queryLive stamp d qs).result = (s'.queryLive stamp d qs).result ∧
    (s.queryLive stamp d qs).session = s ∧
    (s'.logger.level = .trace → ∃ rs : List Record,
      (s'.queryLive stamp d qs).deliveries = rs.map .handed ∧
      (s.queryLive stamp d qs).deliveries =
        (rs.filter fun r => s.logger.recordEnabled r.level).map .handed) := by
  refine ⟨queryLive_eq stamp s d qs, ?_⟩
  simp only [queryLive_eq, query_of_hands hs, query_of_hands hs', true_and]
  intro htrace
  refine ⟨offers d qs, ?_, rfl⟩
  rw [List.filter_eq_self.mpr fun r hr =>
    Logger.recordEnabled_of_trace htrace (offers_detail d qs r hr)]

def fridays : Description := ⟨.expression "0 0 13 * 5 *", none⟩

def newYear2024 : Instant := (Date.midnight ⟨2024, 1, 1, by decide⟩).start

def tracing : Session := .ofSettings { layout := .facade, level := .trace }

def debugging : Session := .ofSettings { layout := .facade, level := .error, debug := true }

theorem fridays_filtered :
    debugging.logger.Hands ∧ tracing.logger.Hands ∧ tracing.logger.level = .trace ∧
    ∃ rs : List Record,
      (tracing.queryLive "" fridays [.seek .forward newYear2024]).deliveries = rs.map .handed ∧
      rs.length = 9 ∧
      (debugging.queryLive "" fridays [.seek .forward newYear2024]).deliveries =
        (rs.filter fun r => debugging.logger.recordEnabled r.level).map .handed ∧
      (rs.filter fun r => debugging.logger.recordEnabled r.level).length = 1 := by
  have hdebugging : debugging.logger.Hands := ⟨_, rfl, rfl⟩
  have htracing : tracing.logger.Hands := ⟨_, rfl, rfl⟩
  obtain ⟨-, -, -, hfilter⟩ :=
    queryLive_filters "" hdebugging htracing fridays [.seek .forward newYear2024]
  obtain ⟨rs, hall, hsome⟩ := hfilter rfl
  have hlength : rs.length = 9 := by
    rw [← List.length_map Delivery.handed, ← hall]
    decide +kernel
  refine ⟨hdebugging, htracing, rfl, rs, hall, hlength, hsome, ?_⟩
  rw [← List.length_map Delivery.handed, ← hsome]
  decide +kernel

end Session

end CronCalendar.Log
