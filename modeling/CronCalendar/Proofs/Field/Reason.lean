import CronCalendar.Proofs.Field.Values

/-!
# Reasons for refusing a part

A part may have several faults. `Faulty` says of each reason when it applies, given which texts are
read as which numbers, and the reason reported is the first that applies in the order of
`Reason.all`. Parts are read in numbers of 32 bits. Where no larger numeral comes into it, the reason
is the one that numbers of any size give; a larger numeral is reported by a reason that does not
apply to it, as a step that is not positive or as a base with an unexpected character.
-/

namespace CronCalendar

structure First {α : Type} (P : α → Prop) (l : List α) (a : α) : Prop where
  holds : P a
  split : ∃ earlier later, l = earlier ++ a :: later ∧ ∀ b ∈ earlier, ¬ P b

namespace First

variable {α : Type} {P : α → Prop} {l : List α} {a b : α}

theorem not_nil : ¬ First P [] a := by
  rintro ⟨-, earlier, later, hsplit, -⟩
  simp at hsplit

theorem cons_iff : First P (b :: l) a ↔ P b ∧ b = a ∨ ¬ P b ∧ First P l a := by
  constructor
  · rintro ⟨ha, earlier, later, hsplit, hearlier⟩
    cases earlier with
    | nil =>
      obtain ⟨rfl, -⟩ := List.cons.inj hsplit
      exact .inl ⟨ha, rfl⟩
    | cons c earlier =>
      obtain ⟨rfl, hl⟩ := List.cons.inj hsplit
      obtain ⟨hb, hearlier⟩ := List.forall_mem_cons.mp hearlier
      exact .inr ⟨hb, ha, earlier, later, hl, hearlier⟩
  · rintro (⟨hb, rfl⟩ | ⟨hb, ha, earlier, later, rfl, hearlier⟩)
    · exact ⟨hb, [], l, rfl, List.forall_mem_nil _⟩
    · exact ⟨ha, b :: earlier, later, rfl, List.forall_mem_cons.mpr ⟨hb, hearlier⟩⟩

theorem exists_of_mem (h : ∃ a ∈ l, P a) : ∃ a, First P l a := by
  induction l with
  | nil => simp at h
  | cons b l ih =>
    by_cases hb : P b
    · exact ⟨b, cons_iff.mpr (.inl ⟨hb, rfl⟩)⟩
    · obtain ⟨a, ha, hP⟩ := h
      rcases List.mem_cons.mp ha with rfl | ha
      · contradiction
      · obtain ⟨c, hc⟩ := ih ⟨a, ha, hP⟩
        exact ⟨c, cons_iff.mpr (.inr ⟨hb, hc⟩)⟩

end First

namespace Reason

def all : List Reason :=
  [.emptyValue, .invalidStep, .unexpectedCharacter, .rangeBelowMinimum, .rangeAboveMaximum,
    .reversedRange, .valueBelowMinimum, .valueAboveMaximum]

theorem mem_all (r : Reason) : r ∈ all := by cases r <;> decide

end Reason

namespace Text

def DenotesWord (cs : List Char) (n : Nat) : Prop := Denotes cs n ∧ n < UInt32.size

def Oversize (cs : List Char) : Prop := ∃ n, Denotes cs n ∧ UInt32.size ≤ n

theorem word?_of_oversize {cs : List Char} (h : Oversize cs) : word? cs = none := by
  obtain ⟨n, hn, hsize⟩ := h
  have hnumeral : numeral? cs = some n := numeral?_eq_some_iff.mpr hn
  simp [word?, hnumeral, hsize]

theorem word?_eq_numeral? {cs : List Char} (h : ¬ Oversize cs) : word? cs = numeral? cs := by
  unfold word?
  cases hnumeral : numeral? cs with
  | none => rfl
  | some n =>
    have hsize : n < UInt32.size := by
      apply Nat.lt_of_not_le
      intro hsize
      exact h ⟨n, numeral?_eq_some_iff.mp hnumeral, hsize⟩
    simp [hsize]

theorem word?_eq_none {cs : List Char} (h : ¬ ∃ n, Denotes cs n) :
    numeral? cs = none ∧ word? cs = none := by
  have hnone : numeral? cs = none := by
    apply Option.eq_none_iff_forall_ne_some.mpr
    intro n hn
    exact h ⟨n, numeral?_eq_some_iff.mp hn⟩
  exact ⟨hnone, by rw [word?, hnone, Option.filter_none]⟩

theorem Oversize.denotes {cs : List Char} (h : Oversize cs) : ∃ n, Denotes cs n := by
  obtain ⟨n, hn, -⟩ := h
  exact ⟨n, hn⟩

end Text

namespace Part

def base (text : List Char) : List Char := Text.before '/' text

def low (text : List Char) : List Char := Text.before '-' (base text)

def high (text : List Char) : List Char := Text.behind '-' (base text)

def BadStep (Reads : List Char → Nat → Prop) (text : List Char) : Prop :=
  '/' ∈ text ∧ ¬ ∃ n, Reads (Text.behind '/' text) n ∧ 1 ≤ n

/-- When a reason applies, given which texts are read as which numbers. -/
def Faulty (Reads : List Char → Nat → Prop) (k : Kind) (text : List Char) : Reason → Prop
  | .emptyValue => base text = []
  | .invalidStep => BadStep Reads text
  | .unexpectedCharacter => base text ≠ ['*'] ∧
      if '-' ∈ base text then ¬ ((∃ lo, Reads (low text) lo) ∧ ∃ hi, Reads (high text) hi)
      else ¬ ∃ n, Reads (base text) n
  | .rangeBelowMinimum => '-' ∈ base text ∧ ∃ lo, Reads (low text) lo ∧ lo < k.least
  | .rangeAboveMaximum => '-' ∈ base text ∧ ∃ hi, Reads (high text) hi ∧ k.greatest < hi
  | .reversedRange => '-' ∈ base text ∧
      ∃ lo hi, Reads (low text) lo ∧ Reads (high text) hi ∧ hi < lo
  | .valueBelowMinimum => '-' ∉ base text ∧ ∃ n, Reads (base text) n ∧ n < k.least
  | .valueAboveMaximum => '-' ∉ base text ∧ ∃ n, Reads (base text) n ∧ k.greatest < n

def OversizedBase (text : List Char) : Prop :=
  if '-' ∈ base text then
    ((∃ lo, Text.Denotes (low text) lo) ∧ ∃ hi, Text.Denotes (high text) hi) ∧
      (Text.Oversize (low text) ∨ Text.Oversize (high text))
  else Text.Oversize (base text)

/-- A numeral beyond 32 bits stands where a number is looked for: as the step, or where the step is
in order, in the base. -/
def Oversized (text : List Char) : Prop :=
  base text ≠ [] ∧ ('/' ∈ text ∧ Text.Oversize (Text.behind '/' text) ∨
    ¬ BadStep Text.DenotesWord text ∧ OversizedBase text)

def baseReason? (read : List Char → Option Nat) (k : Kind) (text : List Char) : Option Reason :=
  if base text = ['*'] then none
  else if '-' ∈ base text then
    match read (low text), read (high text) with
    | some lo, some hi =>
      if lo < k.least then some .rangeBelowMinimum
      else if k.greatest < hi then some .rangeAboveMaximum
      else if hi < lo then some .reversedRange
      else none
    | _, _ => some .unexpectedCharacter
  else
    match read (base text) with
    | some n =>
      if n < k.least then some .valueBelowMinimum
      else if k.greatest < n then some .valueAboveMaximum
      else none
    | none => some .unexpectedCharacter

def reason? (read : List Char → Option Nat) (k : Kind) (text : List Char) : Option Reason :=
  if base text = [] then some .emptyValue
  else if '/' ∈ text ∧ (read (Text.behind '/' text)).getD 0 = 0 then some .invalidStep
  else baseReason? read k text

variable {Reads : List Char → Nat → Prop} {read : List Char → Option Nat} {k : Kind}
  {text : List Char} {r : Reason}

theorem badStep_iff (hread : ∀ cs n, Reads cs n ↔ read cs = some n) :
    BadStep Reads text ↔ '/' ∈ text ∧ (read (Text.behind '/' text)).getD 0 = 0 := by
  unfold BadStep
  refine and_congr_right fun _ => ?_
  simp only [hread]
  cases read (Text.behind '/' text) with
  | none => simp
  | some n => simp

theorem first_faulty_iff (hread : ∀ cs n, Reads cs n ↔ read cs = some n)
    (hnone : read ['*'] = none) :
    First (Faulty Reads k text) Reason.all r ↔ reason? read k text = some r := by
  have hstep : BadStep Reads text ↔ _ := badStep_iff hread
  simp only [Reason.all, First.cons_iff, First.not_nil, or_false, and_false, reason?, Faulty, hread]
  rw [hstep]
  by_cases hbase : base text = []
  · simp [hbase]
  by_cases hbad : '/' ∈ text ∧ (read (Text.behind '/' text)).getD 0 = 0
  · simp [hbase, hbad]
  simp only [hbase, hbad, if_false, false_and, false_or, not_false_eq_true, true_and, baseReason?]
  by_cases hstar : base text = ['*']
  · simp [hstar, hnone]
  by_cases hdash : '-' ∈ base text
  · simp only [hstar, hdash, if_true, if_false]
    cases read (low text) with
    | none => simp [hstar]
    | some lo =>
      cases read (high text) with
      | none => simp [hstar]
      | some hi =>
        by_cases hlo : lo < k.least
        · simp [hlo]
        by_cases hhi : k.greatest < hi
        · simp [hlo, hhi]
        by_cases hle : hi < lo
        · simp [hlo, hhi, hle]
        simp [hlo, hhi, hle]
  · simp only [hstar, hdash, if_false]
    cases read (base text) with
    | none => simp [hstar]
    | some n =>
      by_cases hleast : n < k.least
      · simp [hleast]
      by_cases hgreatest : k.greatest < n
      · simp [hleast, hgreatest]
      simp [hleast, hgreatest]

theorem first_faulty_denotes_iff : First (Faulty Text.Denotes k text) Reason.all r ↔
    reason? Text.numeral? k text = some r :=
  first_faulty_iff (fun _ _ => Text.numeral?_eq_some_iff.symm) rfl

theorem badStep_word_iff : BadStep Text.DenotesWord text ↔
    '/' ∈ text ∧ (Text.word? (Text.behind '/' text)).getD 0 = 0 :=
  badStep_iff fun _ _ => Text.word?_eq_some_iff.symm

theorem first_faulty_word_iff : First (Faulty Text.DenotesWord k text) Reason.all r ↔
    reason? Text.word? k text = some r :=
  first_faulty_iff (fun _ _ => Text.word?_eq_some_iff.symm) rfl

def refusal {α : Type} : Except Reason α → Option Reason
  | .ok _ => none
  | .error r => some r

theorem refusal_bind {α β : Type} (x : Except Reason α) (f : α → β) :
    refusal (x >>= fun a => return f a) = refusal x := by
  cases x <;> rfl

theorem refusal_parseBase (k : Kind) (stepped : Bool) (text : List Char) :
    refusal (parseBase k stepped (base text)) = baseReason? Text.word? k text := by
  unfold baseReason? parseBase
  by_cases hstar : base text = ['*']
  · simp [hstar, refusal]
  by_cases hdash : '-' ∈ base text
  · simp only [hstar, hdash, if_true, if_false, Text.cut?_eq_ite, low, high]
    cases Text.word? (Text.before '-' (base text)) with
    | none => rfl
    | some lo =>
      cases Text.word? (Text.behind '-' (base text)) with
      | none => rfl
      | some hi =>
        dsimp only
        split_ifs <;> rfl
  · simp only [hstar, hdash, if_false, Text.cut?_eq_ite]
    cases Text.word? (base text) with
    | none => rfl
    | some n =>
      dsimp only
      split_ifs <;> rfl

theorem refusal_parse (k : Kind) (text : List Char) :
    refusal (parse k text) = reason? Text.word? k text := by
  unfold parse reason?
  rw [Text.cut?_eq_ite]
  by_cases hslash : '/' ∈ text
  · have hrest : ∀ step : Nat, refusal (parseBase k true (base text) >>= fun bounds =>
        return (⟨bounds.1, bounds.2, step⟩ : Part)) = baseReason? Text.word? k text := by
      intro step
      rw [refusal_bind, refusal_parseBase]
    simp only [hslash, if_true, true_and]
    change refusal (if base text = [] then _ else _) = _
    by_cases hbase : base text = []
    · simp only [hbase, if_true, refusal]
    simp only [hbase, if_false, parseStep]
    cases Text.word? (Text.behind '/' text) with
    | none => rfl
    | some n =>
      by_cases hpos : 0 < n
      · simp only [hpos, if_true, Option.getD_some, Nat.ne_of_gt hpos, if_false]
        exact hrest n
      · obtain rfl : n = 0 := Nat.eq_zero_of_not_pos hpos
        rfl
  · have hbase : base text = text := Text.before_of_not_mem hslash
    simp only [hslash, if_false, false_and, hbase]
    by_cases hempty : text = []
    · simp only [hempty, if_true, refusal]
    simp only [hempty, if_false]
    rw [refusal_bind, ← refusal_parseBase k false, hbase]

theorem baseReason?_eq (h : ¬ OversizedBase text) :
    baseReason? Text.numeral? k text = baseReason? Text.word? k text := by
  unfold OversizedBase at h
  unfold baseReason?
  by_cases hdash : '-' ∈ base text
  · simp only [hdash, if_true] at h ⊢
    by_cases hlow : ∃ lo, Text.Denotes (low text) lo
    · by_cases hhigh : ∃ hi, Text.Denotes (high text) hi
      · obtain ⟨hfits, hfits'⟩ := not_or.mp (not_and.mp h ⟨hlow, hhigh⟩)
        rw [Text.word?_eq_numeral? hfits, Text.word?_eq_numeral? hfits']
      · -- a side that is no numeral at all is none for either reading, whatever the other side is
        obtain ⟨hnone, hnone'⟩ := Text.word?_eq_none hhigh
        rw [hnone, hnone']
        cases Text.numeral? (low text) <;> cases Text.word? (low text) <;> rfl
    · obtain ⟨hnone, hnone'⟩ := Text.word?_eq_none hlow
      rw [hnone, hnone']
  · simp only [hdash, if_false] at h ⊢
    rw [Text.word?_eq_numeral? h]

theorem reason?_eq (h : ¬ Oversized text) :
    reason? Text.numeral? k text = reason? Text.word? k text := by
  unfold reason?
  by_cases hempty : base text = []
  · simp only [hempty, if_true]
  obtain ⟨hstep, hbase⟩ := not_or.mp (not_and.mp h hempty)
  have hsame : '/' ∈ text → Text.word? (Text.behind '/' text) = Text.numeral? (Text.behind '/' text) :=
    fun hslash => Text.word?_eq_numeral? (not_and.mp hstep hslash)
  rw [badStep_word_iff] at hbase
  by_cases hslash : '/' ∈ text
  · rw [hsame hslash] at hbase ⊢
    by_cases hbad : '/' ∈ text ∧ (Text.numeral? (Text.behind '/' text)).getD 0 = 0
    · simp only [hempty, hbad, and_self, if_false, if_true]
    · rw [baseReason?_eq (not_and.mp hbase hbad)]
  · simp only [hslash, false_and, not_false_eq_true, true_and, if_false] at hbase ⊢
    rw [baseReason?_eq hbase]

theorem baseReason?_of_oversized (h : OversizedBase text) :
    baseReason? Text.word? k text = some .unexpectedCharacter ∧
      ¬ Faulty Text.Denotes k text .unexpectedCharacter := by
  unfold OversizedBase at h
  have hstar : base text ≠ ['*'] := by
    intro hstar
    rw [hstar] at h
    obtain ⟨n, hn⟩ := Text.Oversize.denotes h
    exact absurd List.mem_cons_self (hn.not_mem (by decide))
  simp only [baseReason?, Faulty, hstar, if_false]
  by_cases hdash : '-' ∈ base text
  · simp only [hdash, if_true] at h ⊢
    refine ⟨?_, fun hfaulty => hfaulty.2 h.1⟩
    rcases h.2 with hlow | hhigh
    · rw [Text.word?_of_oversize hlow]
    · rw [Text.word?_of_oversize hhigh]
      cases Text.word? (low text) <;> rfl
  · simp only [hdash, if_false] at h ⊢
    rw [Text.word?_of_oversize h]
    exact ⟨rfl, fun hfaulty => hfaulty.2 h.denotes⟩

theorem reason?_of_oversized (h : Oversized text) :
    ∃ r, reason? Text.word? k text = some r ∧ ¬ Faulty Text.Denotes k text r := by
  obtain ⟨hempty, ⟨hslash, n, hn, hsize⟩ | ⟨hstep, hbase⟩⟩ := h
  · have hnone : Text.word? (Text.behind '/' text) = none := Text.word?_of_oversize ⟨n, hn, hsize⟩
    refine ⟨.invalidStep, by simp [reason?, hempty, hslash, hnone], fun hbad => ?_⟩
    exact hbad.2 ⟨n, hn, Nat.le_trans (by decide) hsize⟩
  · obtain ⟨hreason, hfaulty⟩ := baseReason?_of_oversized (k := k) hbase
    refine ⟨.unexpectedCharacter, ?_, hfaulty⟩
    rw [badStep_word_iff] at hstep
    simp only [reason?, hempty, hstep, if_false]
    exact hreason

theorem not_oversized_of_none (h : reason? Text.word? k text = none) : ¬ Oversized text := by
  intro hoversized
  obtain ⟨r, hr, -⟩ := reason?_of_oversized (k := k) hoversized
  rw [h] at hr
  contradiction

theorem not_faulty_of_none (h : reason? Text.numeral? k text = none) :
    ∀ r, ¬ Faulty Text.Denotes k text r := by
  intro r hfaulty
  obtain ⟨first, hfirst⟩ := First.exists_of_mem ⟨r, r.mem_all, hfaulty⟩
  rw [first_faulty_denotes_iff, h] at hfirst
  contradiction

end Part

namespace Field

variable {k : Kind} {text : String} {fault : Fault}

theorem parseParts_eq_error_iff {parts : List (List Char)} :
    parseParts k parts = .error fault ↔
      ∃ bad reason, First (fun part => Part.refusal (Part.parse k part) ≠ none) parts bad ∧
        Part.refusal (Part.parse k bad) = some reason ∧ fault = .part (String.ofList bad) reason := by
  induction parts with
  | nil => simp [parseParts, First.not_nil]
  | cons part parts ih =>
    rw [parseParts]
    cases hpart : Part.parse k part with
    | error reason =>
      have hrefusal : Part.refusal (Part.parse k part) = some reason := by rw [hpart]; rfl
      simp only [First.cons_iff, hrefusal, ne_eq, reduceCtorEq, not_false_eq_true, true_and,
        not_true_eq_false, false_and, or_false, exists_and_left, exists_eq_left',
        Option.some.injEq, Except.error.injEq]
      exact eq_comm
    | ok p =>
      have hrefusal : Part.refusal (Part.parse k part) = none := by rw [hpart]; rfl
      simp only [First.cons_iff, hrefusal, ne_eq, not_true_eq_false, false_and, not_false_eq_true,
        true_and, false_or, ← ih]
      cases parseParts k parts <;> simp [Except.map]

theorem valuesOf_eq_error_iff : valuesOf k text = .error fault ↔
    if text = "" then fault = .empty
    else parseParts k (text.toList.splitOn ',') = .error fault := by
  unfold valuesOf
  rw [Text.pieces_eq_splitOn]
  by_cases hempty : text = ""
  · simp only [hempty, if_true, Except.error.injEq]
    exact eq_comm
  · simp only [hempty, if_false]
    cases parseParts k (text.toList.splitOn ',') <;> simp [Except.map]

theorem valuesOf_one_part (hpart : ',' ∉ text.toList) : valuesOf k text = .error fault ↔
    if text = "" then fault = .empty
    else ∃ reason, Part.reason? Text.word? k text.toList = some reason ∧
      fault = .part text reason := by
  rw [valuesOf_eq_error_iff, Text.splitOn_of_not_mem hpart]
  by_cases hempty : text = ""
  · simp only [hempty, if_true]
  · simp only [hempty, if_false, parseParts_eq_error_iff, First.cons_iff, First.not_nil, and_false,
      or_false]
    constructor
    · rintro ⟨bad, reason, ⟨-, rfl⟩, hreason, rfl⟩
      refine ⟨reason, ?_, by simp⟩
      rw [← Part.refusal_parse, hreason]
    · rintro ⟨reason, hreason, rfl⟩
      rw [← Part.refusal_parse] at hreason
      exact ⟨text.toList, reason, ⟨by simp [hreason], rfl⟩, hreason, by simp⟩

theorem reason?_of_parse {f : Field k} (hpart : ',' ∉ text.toList) (h : parse k text = .ok f) :
    Part.reason? Text.word? k text.toList = none := by
  apply Option.eq_none_iff_forall_ne_some.mpr
  intro reason hreason
  have herror : ∃ fault, valuesOf k text = .error fault := by
    by_cases hempty : text = ""
    · exact ⟨.empty, (valuesOf_one_part hpart).mpr (by rw [if_pos hempty])⟩
    · refine ⟨.part text reason, (valuesOf_one_part hpart).mpr ?_⟩
      rw [if_neg hempty]
      exact ⟨reason, hreason, rfl⟩
  obtain ⟨fault, hfault⟩ := herror
  rw [parse_eq_error_iff.mpr hfault] at h
  contradiction

/-- A refused part is reported by the first reason that applies with numbers of 32 bits, which is
the first that applies with numbers of any size exactly if no oversized numeral comes into it. -/
theorem parse_reasons (k : Kind) (text : String) (hpart : ',' ∉ text.toList) :
    match parse k text with
    | .ok _ => ¬ Part.Oversized text.toList ∧
        ∀ reason, ¬ Part.Faulty Text.Denotes k text.toList reason
    | .error .empty => text = ""
    | .error (.part fragment reason) => fragment = text ∧
        First (Part.Faulty Text.DenotesWord k text.toList) Reason.all reason ∧
        (First (Part.Faulty Text.Denotes k text.toList) Reason.all reason ↔
          ¬ Part.Oversized text.toList) := by
  cases hparse : parse k text with
  | ok f =>
    have hnone := reason?_of_parse hpart hparse
    have hfits : ¬ Part.Oversized text.toList := Part.not_oversized_of_none hnone
    refine ⟨hfits, Part.not_faulty_of_none ?_⟩
    rw [Part.reason?_eq hfits, hnone]
  | error fault =>
    have herror := (valuesOf_one_part hpart).mp (parse_eq_error_iff.mp hparse)
    cases fault with
    | empty =>
      by_contra hempty
      rw [if_neg hempty] at herror
      obtain ⟨reason, -, hfault⟩ := herror
      contradiction
    | part fragment reason =>
      split at herror
      · contradiction
      · obtain ⟨found, hfound, hfault⟩ := herror
        cases hfault
        refine ⟨rfl, Part.first_faulty_word_iff.mpr hfound, ?_⟩
        constructor
        · intro hfirst hoversized
          obtain ⟨reported, hreported, hnot⟩ := Part.reason?_of_oversized (k := k) hoversized
          rw [hfound] at hreported
          cases hreported
          exact hnot hfirst.holds
        · intro hfits
          rw [Part.first_faulty_denotes_iff, Part.reason?_eq hfits]
          exact hfound

theorem reversedAbove_reasons :
    ',' ∉ "70-61/00000000007".toList ∧
      parse .minute "70-61/00000000007" = .error (.part "70-61/00000000007" .rangeAboveMaximum) ∧
      First (Part.Faulty Text.Denotes .minute "70-61/00000000007".toList) Reason.all
        .rangeAboveMaximum ∧
      ¬ Part.Oversized "70-61/00000000007".toList := by
  have hpart : ',' ∉ "70-61/00000000007".toList := by decide
  have hparse : parse .minute "70-61/00000000007" =
    .error (.part "70-61/00000000007" .rangeAboveMaximum) := rfl
  have hfirst : First (Part.Faulty Text.Denotes .minute "70-61/00000000007".toList) Reason.all
      .rangeAboveMaximum := Part.first_faulty_denotes_iff.mpr (by decide +kernel)
  have hreasons := parse_reasons .minute "70-61/00000000007" hpart
  rw [hparse] at hreasons
  exact ⟨hpart, hparse, hfirst, hreasons.2.2.mp hfirst⟩

/-- The least numeral beyond 32 bits, as a value that is too great and as a step that is in order. -/
theorem oversized_reasons :
    parse .minute "4294967296" = .error (.part "4294967296" .unexpectedCharacter) ∧
      First (Part.Faulty Text.Denotes .minute "4294967296".toList) Reason.all
        .valueAboveMaximum ∧
      parse .minute "99/4294967296" = .error (.part "99/4294967296" .invalidStep) ∧
      First (Part.Faulty Text.Denotes .minute "99/4294967296".toList) Reason.all
        .valueAboveMaximum := by
  refine ⟨rfl, ?_, rfl, ?_⟩
  · exact Part.first_faulty_denotes_iff.mpr (by decide +kernel)
  · exact Part.first_faulty_denotes_iff.mpr (by decide +kernel)

end Field

end CronCalendar
