import CronCalendar.Proofs.Field.Values

/-!
# The grammar of fields

A field is written as parts between commas, one at least. A text that is not written so is refused,
and what is read from one that is has the values that its parts stand for.
-/

namespace CronCalendar

namespace Field

variable {k : Kind} {text : String}

def Written (k : Kind) (text : String) : Prop :=
  text ≠ "" ∧ ∀ part ∈ text.toList.splitOn ',', ∃ p, Part.Written k part p

def Names (k : Kind) (text : String) (v : Nat) : Prop :=
  ∃ part ∈ text.toList.splitOn ',', ∃ p, Part.Written k part p ∧
    ∃ n, v = p.start + n * p.step ∧ v ≤ p.stop

theorem exists_parseParts_iff {texts : List (List Char)} :
    (∃ parts, parseParts k texts = .ok parts) ↔ ∀ part ∈ texts, ∃ p, Part.Written k part p := by
  induction texts with
  | nil => simp [parseParts]
  | cons part rest ih =>
    rw [List.forall_mem_cons, ← ih]
    constructor
    · rintro ⟨parts, h⟩
      obtain ⟨p, ps, hp, hps, -⟩ := parseParts_cons_eq_ok_iff.mp h
      exact ⟨⟨p, hp⟩, ps, hps⟩
    · rintro ⟨⟨p, hp⟩, ps, hps⟩
      exact ⟨p :: ps, parseParts_cons_eq_ok_iff.mpr ⟨p, ps, hp, hps, rfl⟩⟩

theorem mem_of_parseParts {texts : List (List Char)} {parts : List Part}
    (h : parseParts k texts = .ok parts) {p : Part} :
    p ∈ parts ↔ ∃ part ∈ texts, Part.Written k part p := by
  induction texts generalizing parts with
  | nil =>
    cases h
    simp
  | cons part rest ih =>
    obtain ⟨q, ps, hq, hps, rfl⟩ := parseParts_cons_eq_ok_iff.mp h
    have heq : p = q ↔ Part.Written k part p := ⟨fun heq => heq ▸ hq, fun hp => hp.unique hq⟩
    simp [heq, ih hps]

theorem exists_valuesOf_iff : (∃ values, valuesOf k text = .ok values) ↔ Written k text := by
  unfold valuesOf Written
  rw [Text.pieces_eq_splitOn, ← exists_parseParts_iff]
  by_cases hempty : text = ""
  · simp [hempty]
  · rw [if_neg hempty]
    cases parseParts k (text.toList.splitOn ',') <;> simp [Except.map, hempty]

theorem written_raw (f : Field k) : Written k f.raw :=
  exists_valuesOf_iff.mp ⟨f.values, f.values_of_raw⟩

theorem mem_values_iff {f : Field k} {v : Nat} : v ∈ f.values ↔ Names k f.raw v := by
  obtain ⟨parts, hparts, hvalues⟩ := f.exists_parts
  rw [Text.pieces_eq_splitOn] at hparts
  have hmem : v ∈ f.values ↔ v ∈ k.domain ∧ ∃ p ∈ parts, p.Admits v := by
    rw [hvalues, expand, List.mem_filter, List.any_eq_true]
    simp only [decide_eq_true_eq]
  rw [hmem]
  constructor
  · rintro ⟨-, p, hp, hadmits⟩
    obtain ⟨part, hpart, hwritten⟩ := (mem_of_parseParts hparts).mp hp
    obtain ⟨hstop, n, hn⟩ := Part.admits_iff.mp hadmits
    exact ⟨part, hpart, p, hwritten, n, hn, hstop⟩
  · rintro ⟨part, hpart, p, hwritten, n, hn, hstop⟩
    have hbounds := Part.parse_bounds (Part.parse_of_written hwritten)
    have hstart : p.start ≤ v := by
      rw [hn]
      exact Nat.le_add_right _ _
    exact ⟨Kind.mem_domain.mpr (by omega), p,
      (mem_of_parseParts hparts).mpr ⟨part, hpart, hwritten⟩,
      Part.admits_iff.mpr ⟨hstop, n, hn⟩⟩

/-- A text is read as a field just when it is written as one, and the field keeps the text and has
the values that it names, in ascending order and at least one. -/
theorem parse_grammar (k : Kind) (text : String) :
    match parse k text with
    | .ok f => Written k text ∧ f.raw = text ∧ f.values ≠ [] ∧ f.values.Pairwise (· < ·) ∧
        ∀ v, v ∈ f.values ↔ Names k text v
    | .error _ => ¬ Written k text := by
  cases hparse : parse k text with
  | ok f =>
    obtain rfl := parse_eq_ok_iff.mp hparse
    exact ⟨f.written_raw, rfl, f.values_ne_nil, f.values_ascending, fun v => mem_values_iff⟩
  | error fault =>
    intro hwritten
    obtain ⟨values, hvalues⟩ := exists_valuesOf_iff.mpr hwritten
    rw [parse_eq_error_iff.mp hparse] at hvalues
    contradiction

end Field

end CronCalendar
