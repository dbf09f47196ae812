import CronCalendar.Proofs.Entry.Enumeration
import CronCalendar.Proofs.Field.Grammar

/-!
# Only the denoted sets matter

How the set of a field is written shows nowhere but in the text of the entry. The values of a field
are ascending, so the set they form fixes them, and of a field no query reads anything but its
values: entries with the same sets and the same limit search the calendar in the same steps. A set
is the union of what its parts name, so their order and number of times they stand there do not
matter either.
-/

namespace CronCalendar

namespace Field

variable {k : Kind} {text text' : String} {f g : Field k}

theorem values_eq_of_mem_iff (h : ∀ v, v ∈ f ↔ v ∈ g) : f.values = g.values :=
  f.values_ascending.eq_of_mem_iff g.values_ascending h

theorem exists_parse_of_written (h : Written k text) : ∃ f : Field k, parse k text = .ok f := by
  obtain ⟨values, hvalues⟩ := exists_valuesOf_iff.mpr h
  exact ⟨⟨text, values, hvalues⟩, parse_eq_ok_iff.mpr rfl⟩

theorem mem_iff_names (h : parse k text = .ok f) (v : Nat) : v ∈ f ↔ Names k text v := by
  rw [← parse_eq_ok_iff.mp h]
  exact mem_values_iff

theorem written_of_parse (h : parse k text = .ok f) : Written k text := by
  rw [← parse_eq_ok_iff.mp h]
  exact f.written_raw

theorem splitOn_comma (text text' : String) :
    (text ++ "," ++ text').toList.splitOn ',' =
      text.toList.splitOn ',' ++ text'.toList.splitOn ',' := by
  simp only [String.toList_append]
  rw [List.append_assoc]
  exact List.splitOn_append_cons_of_beq _ _ (beq_self_eq_true ',')

theorem parse_join (hf : parse k text = .ok f) (hg : parse k text' = .ok g) :
    ∃ h : Field k, parse k (text ++ "," ++ text') = .ok h ∧ ∀ v, v ∈ h ↔ v ∈ f ∨ v ∈ g := by
  have hwritten : Written k (text ++ "," ++ text') := by
    refine ⟨by simp [String.append_eq_empty_iff], ?_⟩
    rw [splitOn_comma, List.forall_mem_append]
    exact ⟨(written_of_parse hf).2, (written_of_parse hg).2⟩
  obtain ⟨h, hh⟩ := exists_parse_of_written hwritten
  refine ⟨h, hh, fun v => ?_⟩
  rw [mem_iff_names hh, mem_iff_names hf, mem_iff_names hg]
  simp only [Names, splitOn_comma, List.mem_append, or_and_right, exists_or]

theorem parse_of_same_parts (hf : parse k text = .ok f)
    (hparts : ∀ part, part ∈ text'.toList.splitOn ',' ↔ part ∈ text.toList.splitOn ',') :
    ∃ h : Field k, parse k text' = .ok h ∧ h.values = f.values := by
  obtain ⟨-, htext⟩ := written_of_parse hf
  have hwritten : Written k text' := by
    refine ⟨?_, fun part hpart => htext part ((hparts part).mp hpart)⟩
    rintro rfl
    -- the empty text has an empty part, and no part of a field is empty
    obtain ⟨p, hp⟩ := htext [] ((hparts []).mp (by simp))
    have := Part.parse_of_written hp
    contradiction
  obtain ⟨h, hh⟩ := exists_parse_of_written hwritten
  refine ⟨h, hh, values_eq_of_mem_iff fun v => ?_⟩
  rw [mem_iff_names hh, mem_iff_names hf]
  simp only [Names, hparts]

end Field

def SearchError.reword (expression : String) : SearchError → SearchError
  | .unreachable _ steps => .unreachable expression steps
  | .outOfRange reference => .outOfRange reference

namespace Entry

/-- The entries have the same sets and the same limit, however their sets are written. -/
structure Alike (a b : Entry) : Prop where
  mem_iff : ∀ k v, v ∈ a.field k ↔ v ∈ b.field k
  maxSteps_eq : a.config.maxSteps = b.config.maxSteps

namespace Alike

variable {a b : Entry} {d : Direction}

theorem values_eq (h : a.Alike b) (k : Kind) : (a.field k).values = (b.field k).values :=
  Field.values_eq_of_mem_iff (h.mem_iff k)

theorem fires_iff (h : a.Alike b) (m : Minute) : a.Fires m ↔ b.Fires m :=
  and_congr (h.mem_iff .minute _) <| and_congr (h.mem_iff .hour _) <|
    and_congr (h.mem_iff .dayOfMonth _) <| and_congr (h.mem_iff .month _) <|
      and_congr (h.mem_iff .dayOfWeek _) <| and_congr Iff.rfl (h.mem_iff .year _)

theorem search_eq (h : a.Alike b) (d : Direction) (t : Instant) : a.search d t = b.search d t := by
  have hvalues := h.values_eq
  have hsteps := h.maxSteps_eq
  obtain ⟨⟨_, minutes, _⟩, ⟨_, hours, _⟩, ⟨_, days, _⟩, ⟨_, months, _⟩, ⟨_, weekdays, _⟩,
    ⟨_, years, _⟩, ⟨steps⟩⟩ := a
  obtain ⟨⟨_, minutes', _⟩, ⟨_, hours', _⟩, ⟨_, days', _⟩, ⟨_, months', _⟩, ⟨_, weekdays', _⟩,
    ⟨_, years', _⟩, ⟨steps'⟩⟩ := b
  obtain rfl : minutes = minutes' := hvalues .minute
  obtain rfl : hours = hours' := hvalues .hour
  obtain rfl : days = days' := hvalues .dayOfMonth
  obtain rfl : months = months' := hvalues .month
  obtain rfl : weekdays = weekdays' := hvalues .dayOfWeek
  obtain rfl : years = years' := hvalues .year
  obtain rfl : steps = steps' := hsteps
  -- the entries differ in nothing but their texts now, and no position and no move reads a text
  cases d <;> rfl

theorem seek_eq (h : a.Alike b) (d : Direction) (t : Instant) :
    b.seek d t = (a.seek d t).mapError (.reword b.display) := by
  unfold seek
  rw [h.search_eq d t]
  cases (b.search d t).outcome <;> rfl

theorem take_eq (h : a.Alike b) (n : Nat) (t : Instant) :
    ((b.triggersFrom d t).take n).1 = ((a.triggersFrom d t).take n).1 := by
  induction n generalizing t with
  | zero => rfl
  | succ n ih =>
    have hseek := h.seek_eq d t
    cases ha : a.seek d t with
    | ok found =>
      rw [ha] at hseek
      rw [Triggers.take_of_found ha, Triggers.take_of_found hseek, ih]
    | error err =>
      rw [ha] at hseek
      rw [Triggers.take_of_error ha, Triggers.take_of_error hseek]

end Alike

/-- Entries that denote the same sets answer every query alike, but for the text that an error names
them by. Joining texts by a comma joins their sets, and the order of parts and the number of times
that they are repeated do not change a set. -/
theorem denoted_sets_decide :
    (∀ a b : Entry, a.Alike b → ∀ t : Instant,
      (a.Matches t ↔ b.Matches t) ∧
      b.nextAfter t = (a.nextAfter t).mapError (.reword b.display) ∧
      b.prevBefore t = (a.prevBefore t).mapError (.reword b.display) ∧
      ∀ n, ((b.upcoming t).take n).1 = ((a.upcoming t).take n).1 ∧
        ((b.preceding t).take n).1 = ((a.preceding t).take n).1) ∧
    ∀ (k : Kind) (text text' : String) (f : Field k), Field.parse k text = .ok f →
      (∀ g : Field k, Field.parse k text' = .ok g →
        ∃ h : Field k, Field.parse k (text ++ "," ++ text') = .ok h ∧
          h.values.Pairwise (· < ·) ∧ ∀ v, v ∈ h.values ↔ v ∈ f.values ∨ v ∈ g.values) ∧
      ((∀ part, part ∈ text'.toList.splitOn ',' ↔ part ∈ text.toList.splitOn ',') →
        ∃ h : Field k, Field.parse k text' = .ok h ∧ h.values = f.values) := by
  refine ⟨fun a b h t => ⟨h.fires_iff t.minute, h.seek_eq .forward t, h.seek_eq .backward t, ?_⟩,
    fun k text text' f hf => ⟨fun g hg => ?_, Field.parse_of_same_parts hf⟩⟩
  · exact fun n => ⟨h.take_eq n t, h.take_eq n t⟩
  · obtain ⟨h, hh, hmem⟩ := Field.parse_join hf hg
    exact ⟨h, hh, h.values_ascending, hmem⟩

def winterMornings : Entry where
  minutes := ⟨"0-45/15", [0, 15, 30, 45], rfl⟩
  hours := ⟨"8-10", [8, 9, 10], rfl⟩
  days := ⟨"3,17", [3, 17], rfl⟩
  months := ⟨"1-2,12", [1, 2, 12], rfl⟩
  weekdays := ⟨"1-2", [1, 2], rfl⟩
  years := ⟨"2025", [2025], rfl⟩

def winterMorningsAgain : Entry where
  minutes := ⟨"45,30,030,15,0", [0, 15, 30, 45], rfl⟩
  hours := ⟨"10,8-9", [8, 9, 10], rfl⟩
  days := ⟨"17/31,03", [3, 17], rfl⟩
  months := ⟨"12/1,1,2,1", [1, 2, 12], rfl⟩
  weekdays := ⟨"2,01,2", [1, 2], rfl⟩
  years := ⟨"2025-2025", [2025], rfl⟩

theorem winterMornings_again :
    let january := (Date.midnight ⟨2025, 1, 20, by decide⟩).start
    let february := Minute.start ⟨⟨2025, 2, 3, by decide⟩, 8, 0, by decide, by decide⟩
    let july := (Date.midnight ⟨2025, 7, 1, by decide⟩).start
    winterMornings.Alike winterMorningsAgain ∧
      (winterMornings.nextAfter january = .ok february ∧
        winterMorningsAgain.nextAfter january = .ok february) ∧
      (winterMornings.nextAfter july = .error (.unreachable winterMornings.display 5) ∧
        winterMorningsAgain.nextAfter july =
          .error (.unreachable winterMorningsAgain.display 5)) ∧
      (Field.parse .hour "10,8-9" = .ok winterMorningsAgain.hours ∧
        Field.parse .hour "23" = .ok ⟨"23", [23], rfl⟩ ∧
        ∃ h : Field .hour, Field.parse .hour ("10,8-9" ++ "," ++ "23") = .ok h ∧
          ∀ v, v ∈ h.values ↔ v ∈ [8, 9, 10] ∨ v ∈ [23]) ∧
      (∀ part, part ∈ "8-9,10,8-9".toList.splitOn ',' ↔ part ∈ "10,8-9".toList.splitOn ',') ∧
      ∃ h : Field .hour, Field.parse .hour "8-9,10,8-9" = .ok h ∧ h.values = [8, 9, 10] := by
  intro january february july
  obtain ⟨halike, htexts⟩ := denoted_sets_decide
  have hsame : winterMornings.Alike winterMorningsAgain :=
    ⟨fun k v => by cases k <;> exact Iff.rfl, rfl⟩
  have hfound : (winterMornings.search .forward january).outcome = .found february.minute := by
    decide +kernel
  have hspent : (winterMornings.search .forward july).outcome = .unreachable 5 := by
    decide +kernel
  have hfebruary : winterMornings.nextAfter january = .ok february :=
    congrArg (Search.Outcome.answer winterMornings.display) hfound
  have hjuly : winterMornings.nextAfter july = .error (.unreachable winterMornings.display 5) :=
    congrArg (Search.Outcome.answer winterMornings.display) hspent
  have hagain := (halike _ _ hsame january).2.1
  have hagain' := (halike _ _ hsame july).2.1
  rw [hfebruary] at hagain
  rw [hjuly] at hagain'
  have hhours : Field.parse .hour "10,8-9" = .ok winterMorningsAgain.hours :=
    Field.parse_eq_ok_iff.mpr rfl
  have hlast : Field.parse .hour "23" = .ok ⟨"23", [23], rfl⟩ := Field.parse_eq_ok_iff.mpr rfl
  have hparts (part : List Char) :
      part ∈ "8-9,10,8-9".toList.splitOn ',' ↔ part ∈ "10,8-9".toList.splitOn ',' := by
    have htwice : "8-9,10,8-9".toList.splitOn ',' =
        ["8-9".toList, "10".toList, "8-9".toList] := by decide +kernel
    have honce : "10,8-9".toList.splitOn ',' = ["10".toList, "8-9".toList] := by decide +kernel
    rw [htwice, honce]
    simp only [List.mem_cons, List.not_mem_nil, or_false]
    grind
  obtain ⟨h, hparse, -, hmem⟩ := (htexts .hour "10,8-9" "23" _ hhours).1 _ hlast
  exact ⟨hsame, ⟨hfebruary, hagain⟩, ⟨hjuly, hagain'⟩, ⟨hhours, hlast, h, hparse, hmem⟩, hparts,
    (htexts .hour "10,8-9" "8-9,10,8-9" _ hhours).2 hparts⟩

end Entry

end CronCalendar
