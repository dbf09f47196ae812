import CronCalendar.Config
import CronCalendar.Proofs.Text.Numeral
import CronCalendar.Proofs.Text.Tokens
import Mathlib.Data.List.TakeWhile

/-!
# The step limit that a variable names

A text names a limit when a numeral from 1 to the greatest 32-bit word stands in it, with a plus
sign before it or without one, and nothing but blanks around it. The numeral may be of any length.
The configuration takes the limit that the text of its variable names, and the usual one if there is
no text or the text names none. From then on only the last limit that is set counts.
-/

namespace CronCalendar

namespace Text

variable {lead core trail : List Char}

theorem exists_eq_append_trim (cs : List Char) :
    ∃ lead trail, cs = lead ++ trim cs ++ trail ∧ (∀ c ∈ lead, isBlank c = true) ∧
      ∀ c ∈ trail, isBlank c = true := by
  let rest := (cs.dropWhile isBlank).reverse
  refine ⟨cs.takeWhile isBlank, (rest.takeWhile isBlank).reverse, ?_, ?_, ?_⟩
  · have hrest : trim cs ++ (rest.takeWhile isBlank).reverse = cs.dropWhile isBlank := by
      rw [trim, ← List.reverse_append, List.takeWhile_append_dropWhile, List.reverse_reverse]
    rw [List.append_assoc, hrest, List.takeWhile_append_dropWhile]
  · exact fun c hc => List.mem_takeWhile_imp hc
  · exact fun c hc => List.mem_takeWhile_imp (List.mem_reverse.mp hc)

theorem dropWhile_blanks_append (hlead : ∀ c ∈ lead, isBlank c = true)
    (hcore : Token core) (rest : List Char) :
    (lead ++ (core ++ rest)).dropWhile isBlank = core ++ rest := by
  obtain ⟨c, cs, rfl⟩ := List.exists_cons_of_ne_nil hcore.ne_nil
  rw [List.dropWhile_append_of_pos hlead, List.cons_append,
    List.dropWhile_cons_of_neg (by simp [hcore.not_blank c List.mem_cons_self])]

theorem trim_append (hlead : ∀ c ∈ lead, isBlank c = true) (hcore : Token core)
    (htrail : ∀ c ∈ trail, isBlank c = true) : trim (lead ++ core ++ trail) = core := by
  have hreverse : Token core.reverse :=
    ⟨by simpa using hcore.ne_nil, fun c hc => hcore.not_blank c (List.mem_reverse.mp hc)⟩
  have htrail' : ∀ c ∈ trail.reverse, isBlank c = true :=
    fun c hc => htrail c (List.mem_reverse.mp hc)
  have hback := dropWhile_blanks_append htrail' hreverse []
  rw [List.append_nil] at hback
  rw [trim, List.append_assoc, dropWhile_blanks_append hlead hcore, List.reverse_append, hback,
    List.reverse_reverse]

end Text

namespace Config

/-- The texts that name a limit, with the limit. -/
structure NamesSteps (text : String) (n : Nat) : Prop where
  pos : 1 ≤ n
  le : n ≤ 4294967295
  written : ∃ lead sign digits trail : List Char,
    text.toList = lead ++ (sign ++ digits) ++ trail ∧
    (∀ c ∈ lead, Text.isBlank c = true) ∧ (∀ c ∈ trail, Text.isBlank c = true) ∧
    (sign = [] ∨ sign = ['+']) ∧ Text.Denotes digits n

variable {text : String} {sign digits : List Char} {n : Nat}

theorem exists_eq_append_withoutPlus (cs : List Char) :
    ∃ sign, cs = sign ++ withoutPlus cs ∧ (sign = [] ∨ sign = ['+']) := by
  unfold withoutPlus
  split
  · exact ⟨['+'], rfl, .inr rfl⟩
  · exact ⟨[], rfl, .inl rfl⟩

theorem withoutPlus_append (hsign : sign = [] ∨ sign = ['+']) (h : Text.Denotes digits n) :
    withoutPlus (sign ++ digits) = digits := by
  rcases hsign with rfl | rfl
  · unfold withoutPlus
    split
    · next cs hplus =>
      rw [List.nil_append] at hplus
      exact absurd (hplus ▸ List.mem_cons_self) (h.not_mem (c := '+') (by decide))
    · rfl
  · rfl

theorem token_of_denotes (hsign : sign = [] ∨ sign = ['+']) (h : Text.Denotes digits n) :
    Text.Token (sign ++ digits) := by
  have hplus : Text.isBlank '+' = false := by decide
  refine ⟨by simp [h.ne_nil], List.forall_mem_append.mpr ⟨?_, fun c hc => ?_⟩⟩
  · rcases hsign with rfl | rfl <;> simp [hplus]
  · exact Text.isBlank_of_isDigit (h.digits c hc)

theorem word?_trim_eq_some_iff (hpos : 1 ≤ n) :
    Text.word? (withoutPlus (Text.trim text.toList)) = some n ↔ NamesSteps text n := by
  rw [Text.word?_eq_some_iff]
  constructor
  · rintro ⟨hdenotes, hlt⟩
    obtain ⟨lead, trail, htext, hlead, htrail⟩ := Text.exists_eq_append_trim text.toList
    obtain ⟨sign, htrim, hsign⟩ := exists_eq_append_withoutPlus (Text.trim text.toList)
    rw [htrim] at htext
    exact ⟨hpos, Nat.le_of_lt_succ hlt, lead, sign, _, trail, htext, hlead, htrail, hsign, hdenotes⟩
  · rintro ⟨-, hle, lead, sign, digits, trail, htext, hlead, htrail, hsign, hdenotes⟩
    rw [htext, Text.trim_append hlead (token_of_denotes hsign hdenotes) htrail,
      withoutPlus_append hsign hdenotes]
    exact ⟨hdenotes, Nat.lt_succ_of_le hle⟩

theorem parseSteps?_eq_some_iff {steps : UInt32} :
    parseSteps? text = some steps ↔ NamesSteps text steps.toNat := by
  unfold parseSteps?
  constructor
  · intro h
    split at h
    · next n hn =>
      split at h
      · next hpos =>
        obtain rfl := Option.some.inj h
        rw [UInt32.toNat_ofNat_of_lt' (Text.lt_of_word?_eq_some hn)]
        exact (word?_trim_eq_some_iff hpos).mp hn
      · contradiction
    · contradiction
  · intro h
    rw [(word?_trim_eq_some_iff h.pos).mpr h]
    simpa using Nat.pos_iff_ne_zero.mp h.pos

theorem ofLookup_of_names {lookup : String → Option String}
    (hlookup : lookup stepsVariable = some text) (h : NamesSteps text n) :
    (ofLookup lookup).maxSteps.toNat = n := by
  have hword : (UInt32.ofNat n).toNat = n := UInt32.toNat_ofNat_of_lt' (Nat.lt_succ_of_le h.le)
  have hparse : parseSteps? text = some (UInt32.ofNat n) :=
    parseSteps?_eq_some_iff.mpr (hword.symm ▸ h)
  rw [ofLookup, hlookup, Option.bind_some, hparse]
  exact hword

theorem ofLookup_of_not_names {lookup : String → Option String}
    (h : ¬ ∃ text n, lookup stepsVariable = some text ∧ NamesSteps text n) :
    ofLookup lookup = {} := by
  have hnone : (lookup stepsVariable).bind parseSteps? = none := by
    rw [Option.bind_eq_none_iff]
    intro text htext
    cases hparse : parseSteps? text with
    | none => rfl
    | some steps => exact absurd ⟨text, _, htext, parseSteps?_eq_some_iff.mp hparse⟩ h
  rw [ofLookup, hnone]

theorem ofLookup_eq_iff (lookup : String → Option String) (n : Nat) :
    (ofLookup lookup).maxSteps.toNat = n ↔
      (∃ text, lookup stepsVariable = some text ∧ NamesSteps text n) ∨
        n = 5000 ∧ ¬ ∃ text m, lookup stepsVariable = some text ∧ NamesSteps text m := by
  constructor
  · rintro rfl
    by_cases h : ∃ text m, lookup stepsVariable = some text ∧ NamesSteps text m
    · obtain ⟨text, m, hlookup, hnames⟩ := h
      rw [ofLookup_of_names hlookup hnames]
      exact .inl ⟨text, hlookup, hnames⟩
    · rw [ofLookup_of_not_names h]
      exact .inr ⟨rfl, h⟩
  · rintro (⟨text, hlookup, hnames⟩ | ⟨rfl, hnone⟩)
    · exact ofLookup_of_names hlookup hnames
    · rw [ofLookup_of_not_names hnone]
      rfl

theorem ofLookup_pos (lookup : String → Option String) :
    1 ≤ (ofLookup lookup).maxSteps.toNat := by
  rcases (ofLookup_eq_iff lookup _).mp rfl with ⟨text, -, hnames⟩ | ⟨hdefault, -⟩
  · exact hnames.pos
  · rw [hdefault]
    decide

theorem withMaxSteps_toNat (c : Config) (steps : UInt32) :
    (c.withMaxSteps steps).maxSteps.toNat = max steps.toNat 1 := by
  unfold withMaxSteps
  by_cases hzero : steps = 0
  · subst hzero
    rfl
  · have hne : steps.toNat ≠ 0 := fun h => hzero (UInt32.toNat_inj.mp h)
    rw [if_neg hzero]
    exact (Nat.max_eq_left (Nat.pos_of_ne_zero hne)).symm

theorem foldl_withMaxSteps (c : Config) (args : List UInt32) :
    (args.foldl withMaxSteps c).maxSteps.toNat =
      match args.getLast? with
      | some last => max last.toNat 1
      | none => c.maxSteps.toNat := by
  rcases List.eq_nil_or_concat args with rfl | ⟨earlier, last, rfl⟩
  · rfl
  · rw [List.concat_eq_append, List.foldl_append, List.getLast?_concat]
    exact withMaxSteps_toNat (earlier.foldl withMaxSteps c) last

/-- The configuration has the limit that the text of its variable names, and 5000 if it has no text
or one that names none. Whatever limits are set afterwards, the last of them holds, raised to one if
it is zero. -/
theorem steps_read_exactly (lookup : String → Option String) :
    (∀ n, (ofLookup lookup).maxSteps.toNat = n ↔
      (∃ text, lookup "CRONWALK_MAX_SEARCH_STEPS" = some text ∧ NamesSteps text n) ∨
        n = 5000 ∧
          ¬ ∃ text m, lookup "CRONWALK_MAX_SEARCH_STEPS" = some text ∧ NamesSteps text m) ∧
    ∀ args : List UInt32,
      1 ≤ (args.foldl withMaxSteps (ofLookup lookup)).maxSteps.toNat ∧
      (args.foldl withMaxSteps (ofLookup lookup)).maxSteps.toNat =
        match args.getLast? with
        | some last => max last.toNat 1
        | none => (ofLookup lookup).maxSteps.toNat := by
  refine ⟨ofLookup_eq_iff lookup, fun args => ⟨?_, foldl_withMaxSteps _ args⟩⟩
  rw [foldl_withMaxSteps]
  split
  · exact Nat.le_max_right _ _
  · exact ofLookup_pos lookup

example : parseSteps? "\u3000 +0000000004294967295\n" = some 4294967295 := by decide +kernel

example : ["", " + ", "-3", "++7", "2 5", "+000", "4294967296"].map parseSteps? =
    List.replicate 7 none := by decide +kernel

end Config

end CronCalendar
