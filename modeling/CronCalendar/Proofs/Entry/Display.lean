import CronCalendar.Entry.Value
import CronCalendar.Proofs.Field.Grammar
import CronCalendar.Proofs.Text.Tokens

/-!
# The text of an entry

No text of a field holds a blank, whether it came from a longer text or was given by itself. So the
six texts joined by spaces are cut into the same six texts again, and what an entry is written as
determines all of it but its configuration. What an entry writes is the tokens of what it was read
from, joined by single spaces.
-/

namespace CronCalendar

theorem Field.raw_token {k : Kind} (f : Field k) : Text.Token f.raw.toList := by
  obtain ⟨hne, hparts⟩ := f.written_raw
  have hjoin : [','].intercalate (f.raw.toList.splitOn ',') = f.raw.toList :=
    List.intercalate_splitOn ','
  refine ⟨by simpa using hne, ?_⟩
  rw [← hjoin]
  refine Text.forall_mem_intercalate (by decide) fun part hpart c hc => ?_
  obtain ⟨p, hwritten⟩ := hparts part hpart
  rcases hwritten.marks c hc with hdigit | hmark
  · exact Text.isBlank_of_isDigit hdigit
  · simp only [List.mem_cons, List.not_mem_nil, or_false] at hmark
    rcases hmark with rfl | rfl | rfl <;> decide

namespace Entry

def texts (e : Entry) : List String := Kind.all.map fun k => (e.field k).raw

variable {e : Entry} {s : String}

theorem tokens_display (e : Entry) :
    (Text.tokens e.display.toList).map String.ofList = e.texts := by
  have htokens : ∀ t ∈ e.texts.map String.toList, Text.Token t := by
    intro t ht
    simp only [texts, List.mem_map, exists_exists_and_eq_and] at ht
    obtain ⟨k, -, rfl⟩ := ht
    exact (e.field k).raw_token
  change (Text.tokens (" ".intercalate e.texts).toList).map String.ofList = e.texts
  rw [String.toList_intercalate]
  change (Text.tokens ([' '].intercalate _)).map String.ofList = e.texts
  rw [Text.tokens_intercalate htokens]
  simp

theorem parseField_eq_ok_iff {k : Kind} {text : String} {f : Field k} :
    parseField k text = .ok f ↔ f.raw = text := by
  rw [parseField, ← Field.parse_eq_ok_iff]
  cases Field.parse k text <;> simp [Except.mapError]

theorem ofFields_eq_ok_iff {minute hour dayOfMonth month dayOfWeek year : String} :
    ofFields minute hour dayOfMonth month dayOfWeek year = .ok e ↔
      e.texts = [minute, hour, dayOfMonth, month, dayOfWeek, year] ∧ e.config = {} := by
  have htexts : e.texts = [e.minutes.raw, e.hours.raw, e.days.raw, e.months.raw, e.weekdays.raw,
    e.years.raw] := rfl
  simp only [ofFields, bind_eq_ok_iff, parseField_eq_ok_iff, htexts, List.cons.injEq, and_true]
  constructor
  · rintro ⟨f, hf, g, hg, h, hh, i, hi, j, hj, l, hl, heq⟩
    cases heq
    exact ⟨⟨hf, hg, hh, hi, hj, hl⟩, rfl⟩
  · rintro ⟨⟨hf, hg, hh, hi, hj, hl⟩, hconfig⟩
    refine ⟨_, hf, _, hg, _, hh, _, hi, _, hj, _, hl, ?_⟩
    rw [← hconfig]
    rfl

theorem parse_eq_ok_iff :
    parse s = .ok e ↔ (Text.tokens s.toList).map String.ofList = e.texts ∧ e.config = {} := by
  unfold parse
  split
  · next htokens => rw [ofFields_eq_ok_iff, htokens, eq_comm]
  · next tokens hother =>
    simp only [reduceCtorEq, false_iff, not_and]
    intro htokens
    exact absurd htokens (hother _ _ _ _ _ _)

theorem parse_display (e : Entry) : parse e.display = .ok (e.withConfig {}) :=
  parse_eq_ok_iff.mpr ⟨e.tokens_display, rfl⟩

theorem ofValue_toValue (e : Entry) : ofValue e.toValue = .ok (e.withConfig {}) := by
  rw [toValue, ofValue, parse_display]
  rfl

theorem eq_iff_display_eq {a b : Entry} :
    a = b ↔ a.display = b.display ∧ a.config.maxSteps = b.config.maxSteps := by
  constructor
  · rintro rfl
    exact ⟨rfl, rfl⟩
  · rintro ⟨hdisplay, hsteps⟩
    have hparse := a.parse_display
    rw [hdisplay, parse_display] at hparse
    have hfields : b.withConfig {} = a.withConfig {} := Except.ok.inj hparse
    have hconfig : b.config = a.config := congrArg Config.mk hsteps.symm
    calc a = (a.withConfig {}).withConfig a.config := rfl
      _ = (b.withConfig {}).withConfig b.config := by rw [hfields, hconfig]
      _ = b := rfl

theorem display_of_parse (h : parse s = .ok e) :
    e.display = " ".intercalate ((Text.tokens s.toList).map String.ofList) := by
  rw [(parse_eq_ok_iff.mp h).1]
  rfl

theorem display_eq_iff_of_parse (h : parse s = .ok e) :
    e.display = s ↔ Text.Spaced s.toList := by
  rw [display_of_parse h, ← Text.intercalate_tokens_eq_iff, ← String.toList_inj,
    String.toList_intercalate]
  simp [Function.comp_def]

/-- Writing an entry and reading it again, also as a data value, loses nothing but the
configuration. Reading a text and writing the entry gives the tokens of the text with single spaces
between them, which is the text itself only if it was spaced so. -/
theorem display_faithful :
    (∀ e : Entry, parse e.display = .ok (e.withConfig {}) ∧
      ofValue e.toValue = .ok (e.withConfig {})) ∧
    (∀ a b : Entry, a = b ↔
      a.display = b.display ∧ a.config.maxSteps = b.config.maxSteps) ∧
    ∀ s e, parse s = .ok e →
      e.display = " ".intercalate
        (((s.toList.splitOnP Text.isBlank).filter (· ≠ [])).map String.ofList) ∧
      parse e.display = .ok e ∧ (e.display = s ↔ Text.Spaced s.toList) := by
  refine ⟨fun e => ⟨e.parse_display, e.ofValue_toValue⟩, fun a b => eq_iff_display_eq,
    fun s e h => ⟨?_, ?_, display_eq_iff_of_parse h⟩⟩
  · rw [display_of_parse h, Text.tokens_eq_splitOnP]
  · have hconfig : e.withConfig {} = e := by
      rw [← (parse_eq_ok_iff.mp h).2]
      rfl
    rw [parse_display, hconfig]

def officeHours : Entry where
  minutes := ⟨"*/20", [0, 20, 40], rfl⟩
  hours := ⟨"8-16/4", [8, 12, 16], rfl⟩
  days := ⟨"1,15", [1, 15], rfl⟩
  months := ⟨"*", [1, 2, 3, 4, 5, 6, 7, 8, 9, 10, 11, 12], rfl⟩
  weekdays := ⟨"1-5", [1, 2, 3, 4, 5], rfl⟩
  years := ⟨"2024", [2024], rfl⟩

theorem officeHours_display :
    parse "\t*/20  8-16/4\u30001,15 * 1-5\u00852024\n" = .ok officeHours ∧
      officeHours.display = "*/20 8-16/4 1,15 * 1-5 2024" ∧
      parse "*/20 8-16/4 1,15 * 1-5 2024" = .ok officeHours ∧
      ¬ Text.Spaced "\t*/20  8-16/4\u30001,15 * 1-5\u00852024\n".toList := by
  have hparse : parse "\t*/20  8-16/4\u30001,15 * 1-5\u00852024\n" = .ok officeHours :=
    parse_eq_ok_iff.mpr ⟨by decide +kernel, rfl⟩
  have hdisplay : officeHours.display = "*/20 8-16/4 1,15 * 1-5 2024" := by decide +kernel
  obtain ⟨-, -, hfaithful⟩ := display_faithful
  obtain ⟨-, hagain, hspaced⟩ := hfaithful _ _ hparse
  rw [hdisplay] at hagain hspaced
  exact ⟨hparse, hdisplay, hagain, hspaced.not.mp (by decide)⟩

end Entry

end CronCalendar
