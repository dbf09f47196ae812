import CronCalendar.Log.Session

/-!
# Queries that log as they go

Answers are computed apart from the logger, and what they leave behind is offered to it afterwards.
Here each record is offered at the moment it arises: in the middle of a walk, at the end of a
cursor, after an entry is built. The logger may be made ready there, and it is passed on to what
follows. `Yields` says of such a computation what it answers and which records it offers, and the
lemmas that end in `_yields` say it of every query. So the two ways come to the same step.
-/

namespace CronCalendar.Log

abbrev Logging := StateM (Session × List Delivery)

namespace Live

variable (stamp : String)

def offer (r : Record) : Logging Unit :=
  modify fun (s, delivered) => (s.ready, delivered ++ s.ready.logger.emit stamp r)

variable {σ : Type} (e : Entry)

def walk (move : σ → Search.Move σ) (used : Nat) : Nat → σ → Logging Search.Outcome
  | 0, _ => do
    offer stamp (eventRecord e (.gaveUp (used + 1) used))
    return .unreachable (used + 1)
  | left + 1, position =>
    match move position with
    | .go next => walk move (used + 1) left next
    | .reject candidate next => do
      offer stamp (eventRecord e (.dayRejected candidate))
      walk move (used + 1) left next
    | .found trigger => return .found trigger
    | .exhausted year => do
      offer stamp (eventRecord e (.yearsExhausted year))
      return .unreachable (used + 1)
    | .astray => do
      offer stamp (eventRecord e (.gaveUp (used + 1) (used + 1 + left)))
      return .unreachable (used + 1)
    | .edge candidate => return .outOfRange candidate.start

def search (d : Direction) (t : Instant) : Logging Search.Outcome :=
  match Entry.base? d t, d with
  | some m, .forward =>
    walk stamp e (Search.Forward.move e) 0 e.config.maxSteps.toNat (Search.Forward.start e m)
  | some m, .backward =>
    walk stamp e (Search.Backward.move e) 0 e.config.maxSteps.toNat (Search.Backward.start e m)
  | none, _ => return .outOfRange t

def seek (d : Direction) (t : Instant) : Logging (Except SearchError Instant) := do
  return (← search stamp e d t).answer e.display

def next (c : Triggers) : Logging (Option Instant × Triggers) :=
  match c.cursor with
  | none => return (none, c)
  | some reference => do
    match ← seek stamp c.entry c.direction reference with
    | .ok trigger => return (some trigger, { c with cursor := some trigger })
    | .error error =>
      offer stamp (endedRecord c.entry error)
      return (none, { c with cursor := none })

def take : Nat → Triggers → Logging (List (Option Instant))
  | 0, _ => return []
  | n + 1, c => do
    let (trigger, c) ← next stamp c
    return trigger :: (← take n c)

def tour : Instant → List Direction → Logging (List (Except SearchError Instant))
  | _, [] => return []
  | here, d :: moves => do
    let answer ← seek stamp e d here
    return answer :: (← tour (answer.toOption.getD here) moves)

def ask : Query → Logging (Answer × Entry)
  | .seek d t => return (.trigger (← seek stamp e d t), e)
  | .fires t => return (.truth (e.Matches t), e)
  | .series d t count => return (.series (← take stamp count (e.triggersFrom d t)), e)
  | .tour t moves => return (.tour (← tour stamp e t moves), e)
  | .configure config => return (.budget config.maxSteps, e.withConfig config)
  | .field kind => return (.field kind (e.field kind), e)

def askAll : Entry → List Query → Logging (List Answer)
  | _, [] => return []
  | e, q :: qs => do
    let (answer, e) ← ask stamp e q
    return answer :: (← askAll e qs)

/-- An entry is logged when its fields are read, before it is given a limit of its own. -/
def build (d : Description) : Logging (Except BuildError Entry) := do
  match d.source.build with
  | .error error => return .error error
  | .ok e =>
    offer stamp (parsedRecord e)
    return .ok (match d.maxSteps with
      | some steps => e.withConfig (({} : Config).withMaxSteps steps)
      | none => e)

def query (d : Description) (qs : List Query) : Logging Result := do
  match ← build stamp d with
  | .error error => return .answers (.error error)
  | .ok e => return .answers (.ok (← askAll stamp e qs))

end Live

def Session.queryLive (stamp : String) (s : Session) (d : Description) (qs : List Query) :
    Session.Step :=
  let (result, s, delivered) := Live.query stamp d qs (s, [])
  ⟨result, delivered, s⟩

theorem Logger.ready_ready (env env' : Environment) (g : Logger) :
    (g.ready env).ready env' = g.ready env := by
  unfold ready
  cases hsettings : g.settings with
  | some settings => simp only [hsettings]
  | none => rfl

namespace Session

theorem ready_ready (s : Session) : s.ready.ready = s.ready := by
  simp only [ready, Logger.ready_ready]

theorem ready_emitAll (stamp : String) (s : Session) (rs : List Record) :
    (s.emitAll stamp rs).1.ready = s.ready := by
  unfold emitAll
  split
  · rfl
  · exact s.ready_ready

theorem emitAll_fst {s : Session} (h : s.ready = s) (stamp : String) (rs : List Record) :
    (s.emitAll stamp rs).1 = s := by
  unfold emitAll
  split
  · rfl
  · exact h

theorem emitAll_snd (stamp : String) (s : Session) (rs : List Record) :
    (s.emitAll stamp rs).2 = rs.flatMap (s.ready.logger.emit stamp) := by
  unfold emitAll
  split
  · next hnil => rw [hnil, List.flatMap_nil]
  · rfl

theorem emitAll_append (stamp : String) (s : Session) (rs rs' : List Record) :
    s.emitAll stamp (rs ++ rs') =
      (((s.emitAll stamp rs).1.emitAll stamp rs').1,
        (s.emitAll stamp rs).2 ++ ((s.emitAll stamp rs).1.emitAll stamp rs').2) := by
  refine Prod.ext ?_ ?_
  · cases rs with
    | nil => rfl
    | cons r rs =>
      cases rs' with
      | nil => simp [emitAll]
      | cons r' rs' => simp [emitAll, ready_ready]
  · simp only [emitAll_snd, ready_emitAll, List.flatMap_append]

end Session

/-- The computation answers `a` and offers the records `rs` one after another. -/
def Yields (stamp : String) {α : Type} (m : Logging α) (a : α) (rs : List Record) : Prop :=
  ∀ s delivered,
    m (s, delivered) = (a, (s.emitAll stamp rs).1, delivered ++ (s.emitAll stamp rs).2)

namespace Yields

variable {stamp : String} {α β : Type} {m : Logging α} {f : α → Logging β} {a : α} {b : β}
  {rs rs' : List Record}

theorem pure (a : α) : Yields stamp (pure a) a [] := by
  intro s delivered
  change (a, (s, delivered)) = _
  simp [Session.emitAll]

theorem offer (r : Record) : Yields stamp (Live.offer stamp r) () [r] := by
  intro s delivered
  simp only [Session.emitAll, reduceCtorEq, if_false, List.flatMap_singleton]
  rfl

theorem bind (hm : Yields stamp m a rs) (hf : Yields stamp (f a) b rs') :
    Yields stamp (m >>= f) b (rs ++ rs') := by
  intro s delivered
  have hrun : (m >>= f) (s, delivered) = f (m (s, delivered)).1 (m (s, delivered)).2 := rfl
  rw [hrun, hm s delivered, hf, Session.emitAll_append, List.append_assoc]

theorem map (g : α → β) (hm : Yields stamp m a rs) :
    Yields stamp (m >>= fun a => Pure.pure (g a)) (g a) rs := by
  have h : Yields stamp (m >>= fun a => Pure.pure (g a)) (g a) (rs ++ []) :=
    hm.bind (.pure (g a))
  rwa [List.append_nil] at h

end Yields

namespace Live

variable {stamp : String} {σ : Type} (e : Entry)

theorem walk_yields (move : σ → Search.Move σ) (used left : Nat) (p : σ) :
    Yields stamp (walk stamp e move used left p) (Search.walk move used left p).outcome
      (reportRecords e (Search.walk move used left p)) := by
  induction left generalizing used p with
  | zero => exact .map _ (.offer _)
  | succ left ih =>
    unfold walk Search.walk
    cases move p with
    | go next => exact ih (used + 1) next
    | reject candidate next => exact (Yields.offer _).bind (ih (used + 1) next)
    | found trigger => exact .pure _
    | exhausted year => exact .map _ (.offer _)
    | astray => exact .map _ (.offer _)
    | edge candidate => exact .pure _

theorem search_yields (d : Direction) (t : Instant) :
    Yields stamp (search stamp e d t) (e.search d t).outcome (reportRecords e (e.search d t)) := by
  unfold search Entry.search
  cases Entry.base? d t with
  | none => exact .pure _
  | some m =>
    cases d with
    | forward => exact walk_yields e _ _ _ _
    | backward => exact walk_yields e _ _ _ _

theorem seek_yields (d : Direction) (t : Instant) :
    Yields stamp (seek stamp e d t) (e.seek d t) (reportRecords e (e.search d t)) :=
  .map _ (search_yields e d t)

def callRecords (c : Triggers) : List Record :=
  match c.next.2.1 with
  | some r => stepRecords c.next.2.2.entry r
  | none => []

theorem next_yields (c : Triggers) :
    Yields stamp (next stamp c) (c.next.1, c.next.2.2) (callRecords c) := by
  unfold next callRecords Triggers.next
  cases c.cursor with
  | none => exact .pure _
  | some reference =>
    have hseek : Yields stamp (seek stamp c.entry c.direction reference) _ _ :=
      seek_yields c.entry c.direction reference
    unfold Entry.seek at hseek
    refine hseek.bind ?_
    dsimp only
    cases (c.entry.search c.direction reference).outcome.answer c.entry.display with
    | ok trigger => exact .pure _
    | error error => exact .map _ (.offer _)

theorem take_succ (n : Nat) (c : Triggers) :
    c.take (n + 1) =
      (c.next.1 :: (c.next.2.2.take n).1, callRecords c ++ (c.next.2.2.take n).2) := rfl

theorem take_yields (n : Nat) (c : Triggers) :
    Yields stamp (take stamp n c) (c.take n).1 (c.take n).2 := by
  induction n generalizing c with
  | zero => exact .pure _
  | succ n ih =>
    rw [take_succ]
    exact (next_yields c).bind (.map _ (ih c.next.2.2))

theorem tour_yields (t : Instant) (moves : List Direction) :
    Yields stamp (tour stamp e t moves) (e.tour t moves).1 (e.tour t moves).2 := by
  induction moves generalizing t with
  | nil => exact .pure _
  | cons d moves ih => exact (seek_yields e d t).bind (.map _ (ih _))

theorem ask_yields (q : Query) :
    Yields stamp (ask stamp e q) ((e.ask q).answer, (e.ask q).entry) (e.ask q).records := by
  cases q with
  | seek d t => exact .map _ (seek_yields e d t)
  | fires t => exact .pure _
  | series d t count => exact .map _ (take_yields count _)
  | tour t moves => exact .map _ (tour_yields e t moves)
  | configure config => exact .pure _
  | field kind => exact .pure _

theorem askAll_yields (qs : List Query) :
    Yields stamp (askAll stamp e qs) ((e.askAll qs).map (·.answer))
      ((e.askAll qs).flatMap (·.records)) := by
  induction qs generalizing e with
  | nil => exact .pure _
  | cons q qs ih => exact (ask_yields e q).bind (.map _ (ih _))

theorem build_yields (d : Description) : Yields stamp (build stamp d) d.build d.records := by
  unfold build Description.records Description.build
  cases d.source.build with
  | error error => exact .pure _
  | ok e =>
    cases d.maxSteps with
    | none => exact .map _ (.offer _)
    | some steps => exact .map _ (.offer _)

end Live

theorem Session.queryLive_eq (stamp : String) (s : Session) (d : Description) (qs : List Query) :
    s.queryLive stamp d qs = s.query stamp d qs := by
  have hbuild : Yields stamp (Live.build stamp d) d.build d.records := Live.build_yields d
  unfold queryLive query
  cases hd : d.build with
  | error error =>
    rw [hd] at hbuild
    have hrecords : d.records = [] := by
      rw [Description.records, hd]
    have hquery : Yields stamp (Live.query stamp d qs) (.answers (.error error))
        (d.records ++ []) :=
      hbuild.bind (.pure _)
    rw [hquery, hrecords]
    rfl
  | ok e =>
    rw [hd] at hbuild
    have hquery : Yields stamp (Live.query stamp d qs)
        (.answers (.ok ((e.askAll qs).map (·.answer))))
        (d.records ++ (e.askAll qs).flatMap (·.records)) :=
      hbuild.bind (.map _ (Live.askAll_yields e qs))
    rw [hquery]
    rfl

end CronCalendar.Log
