import CronCalendar.Proofs.Entry.Display
import CronCalendar.Proofs.Field.Reason

/-!
# What a failed construction reports

Six texts make an entry if each of them is a field of its kind. Otherwise the error is that of the
first text that is none: it is empty, or the first of its parts that is no field by itself is named
with the reason it has by itself. What stands behind that part or behind that text has no influence.
-/

namespace CronCalendar

theorem bind_eq_error_iff {ε α β : Type} {x : Except ε α} {f : α → Except ε β} {e : ε} :
    x >>= f = .error e ↔ x = .error e ∨ ∃ a, x = .ok a ∧ f a = .error e := by
  cases x <;> simp [bind, Except.bind]

namespace First

variable {α : Type} {P Q : α → Prop} {l : List α} {a b : α}

theorem mem (h : First P l a) : a ∈ l := by
  obtain ⟨-, earlier, later, rfl, -⟩ := h
  simp

theorem congr (h : ∀ b ∈ l, P b ↔ Q b) : First P l a ↔ First Q l a := by
  induction l with
  | nil => simp [not_nil]
  | cons b l ih =>
    obtain ⟨hb, hl⟩ := List.forall_mem_cons.mp h
    rw [cons_iff, cons_iff, hb, ih hl]

theorem of_append {earlier later later' : List α} (h : First P (earlier ++ a :: later) a) :
    First P (earlier ++ a :: later') a := by
  induction earlier with
  | nil => exact cons_iff.mpr (.inl ⟨h.holds, rfl⟩)
  | cons b earlier ih =>
    rcases cons_iff.mp h with hb | ⟨hb, hrest⟩
    · exact cons_iff.mpr (.inl hb)
    · exact cons_iff.mpr (.inr ⟨hb, ih hrest⟩)

theorem of_takeWhile [DecidableEq α] (h : First P l a) (ha : Q a)
    (hearlier : ∀ b ∈ l.takeWhile (· ≠ a), P b ↔ Q b) : First Q l a := by
  obtain ⟨hP, earlier, later, rfl, hnot⟩ := h
  refine ⟨ha, earlier, later, rfl, fun b hb => ?_⟩
  have hne : ∀ b ∈ earlier, decide (b ≠ a) = true := by
    intro b hb
    apply decide_eq_true
    rintro rfl
    exact hnot b hb hP
  rw [List.takeWhile_append_of_pos hne] at hearlier
  rw [← hearlier b (List.mem_append_left _ hb)]
  exact hnot b hb

end First

namespace Field

variable {k : Kind} {text text' : String} {fault : Fault}

def refusalAlone (k : Kind) (part : List Char) : Option Reason :=
  match parse k (String.ofList part) with
  | .ok _ => none
  | .error .empty => some .emptyValue
  | .error (.part _ reason) => some reason

/-- The fault of a text: it is empty, or the first of its parts that is no field by itself. -/
def Blames (k : Kind) (text : String) : Fault → Prop
  | .empty => text = ""
  | .part fragment reason => text ≠ "" ∧
      First (fun part => refusalAlone k part ≠ none) (text.toList.splitOn ',') fragment.toList ∧
      refusalAlone k fragment.toList = some reason

/-- The texts agree as far as the fault: both are empty, or their parts are the same up to the one
that is at fault. -/
def AgreeTo (text text' : String) : Fault → Prop
  | .empty => text' = text
  | .part fragment _ => text' ≠ "" ∧ ∃ earlier later later',
      text.toList.splitOn ',' = earlier ++ fragment.toList :: later ∧
      text'.toList.splitOn ',' = earlier ++ fragment.toList :: later'

theorem refusalAlone_eq {part : List Char} (h : ',' ∉ part) :
    refusalAlone k part = Part.refusal (Part.parse k part) := by
  have hpart : ',' ∉ (String.ofList part).toList := by simpa using h
  rw [refusalAlone, Part.refusal_parse]
  cases hparse : parse k (String.ofList part) with
  | ok f =>
    have hnone := reason?_of_parse hpart hparse
    rw [String.toList_ofList] at hnone
    exact hnone.symm
  | error fault =>
    have herror := (valuesOf_one_part hpart).mp (parse_eq_error_iff.mp hparse)
    split at herror
    · next hempty =>
      obtain rfl : part = [] := by simpa using hempty
      rw [herror]
      rfl
    · obtain ⟨reason, hreason, hfault⟩ := herror
      rw [hfault]
      rw [String.toList_ofList] at hreason
      exact hreason.symm

theorem parse_eq_error_iff_blames : parse k text = .error fault ↔ Blames k text fault := by
  rw [parse_eq_error_iff, valuesOf_eq_error_iff]
  by_cases hempty : text = ""
  · rw [if_pos hempty]
    cases fault with
    | empty => simp [Blames, hempty]
    | part fragment reason => simp [Blames, hempty]
  · -- no part holds a comma, so each of them by itself is a text of one part
    have hcongr : ∀ part ∈ text.toList.splitOn ',',
        refusalAlone k part = Part.refusal (Part.parse k part) :=
      fun part hpart => refusalAlone_eq (Text.not_mem_of_mem_splitOn hpart)
    have hfirst (bad : List Char) :
        First (fun part => Part.refusal (Part.parse k part) ≠ none) (text.toList.splitOn ',') bad ↔
          First (fun part => refusalAlone k part ≠ none) (text.toList.splitOn ',') bad :=
      First.congr fun part hpart => by rw [hcongr part hpart]
    rw [if_neg hempty, parseParts_eq_error_iff]
    constructor
    · rintro ⟨bad, reason, hbad, hreason, rfl⟩
      have hbad' := (hfirst bad).mp hbad
      simp only [Blames, String.toList_ofList]
      exact ⟨hempty, hbad', (hcongr bad hbad'.mem).trans hreason⟩
    · intro hblames
      cases fault with
      | empty => exact absurd hblames hempty
      | part fragment reason =>
        obtain ⟨-, hbad, hreason⟩ := hblames
        refine ⟨fragment.toList, reason, (hfirst _).mpr hbad, ?_, by simp⟩
        rw [← hcongr _ hbad.mem, hreason]

theorem Blames.of_agreeTo (h : Blames k text fault) (hagree : AgreeTo text text' fault) :
    Blames k text' fault := by
  cases fault with
  | empty => exact hagree.trans h
  | part fragment reason =>
    obtain ⟨-, hfirst, hreason⟩ := h
    obtain ⟨hempty, earlier, later, later', hparts, hparts'⟩ := hagree
    rw [hparts] at hfirst
    refine ⟨hempty, ?_, hreason⟩
    rw [hparts']
    exact hfirst.of_append

end Field

namespace Entry

def ofTexts (texts : Kind → String) : Except ParseError Entry :=
  ofFields (texts .minute) (texts .hour) (texts .dayOfMonth) (texts .month) (texts .dayOfWeek)
    (texts .year)

def Fails (texts : Kind → String) (k : Kind) : Prop := ∀ f, Field.parse k (texts k) ≠ .ok f

def FirstError (texts : Kind → String) (ks : List Kind) (err : ParseError) : Prop :=
  ∃ k fault, First (Fails texts) ks k ∧ Field.parse k (texts k) = .error fault ∧
    err = .field k fault

variable {texts : Kind → String} {err : ParseError}

theorem fails_of_error {k : Kind} {fault : Field.Fault}
    (h : Field.parse k (texts k) = .error fault) : Fails texts k := by
  intro f hf
  rw [h] at hf
  contradiction

theorem parseField_bind_eq_error_iff {k : Kind} {ks : List Kind}
    {rest : Field k → Except ParseError Entry}
    (hrest : ∀ f, rest f = .error err ↔ FirstError texts ks err) :
    parseField k (texts k) >>= rest = .error err ↔ FirstError texts (k :: ks) err := by
  simp only [bind_eq_error_iff, hrest, FirstError, First.cons_iff, parseField]
  cases hparse : Field.parse k (texts k) with
  | ok f =>
    have hfails : ¬ Fails texts k := fun h => h f hparse
    simp [Except.mapError, hfails]
  | error fault =>
    have hfails : Fails texts k := fails_of_error hparse
    simp only [Except.mapError, hfails, true_and, not_true_eq_false, false_and, or_false,
      reduceCtorEq, exists_false, exists_and_left, exists_eq_left', Except.error.injEq, hparse]
    exact eq_comm

theorem ofTexts_eq_error_iff : ofTexts texts = .error err ↔ FirstError texts Kind.all err := by
  unfold ofTexts ofFields
  apply parseField_bind_eq_error_iff; intro minutes
  apply parseField_bind_eq_error_iff; intro hours
  apply parseField_bind_eq_error_iff; intro days
  apply parseField_bind_eq_error_iff; intro months
  apply parseField_bind_eq_error_iff; intro weekdays
  apply parseField_bind_eq_error_iff; intro years
  simp [FirstError, First.not_nil, pure, Except.pure]

theorem parse_of_texts_eq_ok {e : Entry} (h : ofTexts texts = .ok e) (k : Kind) :
    Field.parse k (texts k) = .ok (e.field k) := by
  obtain ⟨htexts, -⟩ := ofFields_eq_ok_iff.mp h
  simp only [Entry.texts, Kind.all, List.map_cons, List.map_nil, List.cons.injEq, and_true] at htexts
  obtain ⟨hminute, hhour, hday, hmonth, hweekday, hyear⟩ := htexts
  apply Field.parse_eq_ok_iff.mpr
  cases k <;> assumption

theorem parse_of_tokens {s : String}
    (h : (Text.tokens s.toList).map String.ofList = Kind.all.map texts) : parse s = ofTexts texts := by
  unfold parse
  rw [h]
  rfl

theorem exists_texts {tokens : List String} (h : tokens.length = 6) :
    ∃ texts : Kind → String, tokens = Kind.all.map texts := by
  refine ⟨fun k => tokens.getD (Kind.all.idxOf k) "", ?_⟩
  match tokens, h with
  | [_, _, _, _, _, _], _ => rfl

theorem parse_of_length {s : String} (h : (Text.tokens s.toList).length ≠ 6) :
    parse s = .error (.fieldCount s (Text.tokens s.toList).length) := by
  unfold parse
  split
  · next htokens =>
    have hlength := congrArg List.length htokens
    rw [List.length_map] at hlength
    exact absurd hlength h
  · rw [List.length_map]

theorem parse_eq_fieldCount_iff {s expression : String} {found : Nat} :
    parse s = .error (.fieldCount expression found) ↔
      expression = s ∧ found = (Text.tokens s.toList).length ∧ found ≠ 6 := by
  by_cases hlength : (Text.tokens s.toList).length = 6
  · have hmap : ((Text.tokens s.toList).map String.ofList).length = 6 := by
      rw [List.length_map, hlength]
    obtain ⟨texts, htexts⟩ := exists_texts hmap
    rw [parse_of_tokens htexts]
    constructor
    · intro herror
      obtain ⟨k, fault, -, -, hfault⟩ := ofTexts_eq_error_iff.mp herror
      contradiction
    · rintro ⟨-, hfound, hne⟩
      exact absurd (hfound.trans hlength) hne
  · rw [parse_of_length hlength]
    constructor
    · intro herror
      cases herror
      exact ⟨rfl, rfl, hlength⟩
    · rintro ⟨rfl, rfl, -⟩
      rfl

theorem ofTexts_eq_of_agree {texts' : Kind → String} {k : Kind} {fault : Field.Fault}
    (hfirst : First (Fails texts) Kind.all k) (hblames : Field.Blames k (texts k) fault)
    (hearlier : ∀ j ∈ Kind.all.takeWhile (· ≠ k), texts' j = texts j)
    (hagree : Field.AgreeTo (texts k) (texts' k) fault) :
    ofTexts texts' = .error (.field k fault) := by
  have hparse : Field.parse k (texts' k) = .error fault :=
    Field.parse_eq_error_iff_blames.mpr (hblames.of_agreeTo hagree)
  refine ofTexts_eq_error_iff.mpr
    ⟨k, fault, hfirst.of_takeWhile (fails_of_error hparse) ?_, hparse, rfl⟩
  intro j hj
  unfold Fails
  rw [hearlier j hj]

/-- A text is refused for its number of tokens just when there are not six. Else the six texts make
an entry if each of them is a field, and if not, the first of them that is none gives the error,
which stays when only what stands behind its fault is changed. -/
theorem construction_blames :
    (∀ s expression found, parse s = .error (.fieldCount expression found) ↔ expression = s ∧
      found = ((s.toList.splitOnP Text.isBlank).filter (· ≠ [])).length ∧ found ≠ 6) ∧
    (∀ (s : String) (texts : Kind → String),
      ((s.toList.splitOnP Text.isBlank).filter (· ≠ [])).map String.ofList = Kind.all.map texts →
      parse s = ofTexts texts) ∧
    ∀ texts : Kind → String, match ofTexts texts with
      | .ok e => ∀ k, Field.parse k (texts k) = .ok (e.field k)
      | .error err => ∃ k fault, err = .field k fault ∧ First (Fails texts) Kind.all k ∧
          Field.parse k (texts k) = .error fault ∧ Field.Blames k (texts k) fault ∧
          ∀ texts' : Kind → String, (∀ j ∈ Kind.all.takeWhile (· ≠ k), texts' j = texts j) →
            Field.AgreeTo (texts k) (texts' k) fault → ofTexts texts' = .error err := by
  refine ⟨?_, ?_, ?_⟩
  · intro s expression found
    rw [← Text.tokens_eq_splitOnP]
    exact parse_eq_fieldCount_iff
  · intro s texts htokens
    rw [← Text.tokens_eq_splitOnP] at htokens
    exact parse_of_tokens htokens
  · intro texts
    cases hresult : ofTexts texts with
    | ok e => exact parse_of_texts_eq_ok hresult
    | error err =>
      obtain ⟨k, fault, hfirst, hparse, rfl⟩ := ofTexts_eq_error_iff.mp hresult
      have hblames := Field.parse_eq_error_iff_blames.mp hparse
      refine ⟨k, fault, rfl, hfirst, hparse, hblames, ?_⟩
      intro texts' hearlier hagree
      exact ofTexts_eq_of_agree hfirst hblames hearlier hagree

def doubledComma : Kind → String
  | .minute => "5"
  | .hour => "1,,30"
  | .dayOfMonth => "13"
  | .month => "x"
  | .dayOfWeek => "*"
  | .year => "2024"

def doubledCommaOnly : Kind → String
  | .minute => "5"
  | .hour => "1,,23"
  | .dayOfMonth => "13"
  | .month => "12"
  | .dayOfWeek => "*"
  | .year => "2024"

theorem doubledComma_blamed :
    parse "5\t1,,30 13  x * 2024" = ofTexts doubledComma ∧
      ofTexts doubledComma = .error (.field .hour (.part "" .emptyValue)) ∧
      ofTexts doubledCommaOnly = .error (.field .hour (.part "" .emptyValue)) ∧
      parse "5 1,,30 13 x *" = .error (.fieldCount "5 1,,30 13 x *" 5) := by
  obtain ⟨hcount, htokens, htexts⟩ := construction_blames
  have herror : ofTexts doubledComma = .error (.field .hour (.part "" .emptyValue)) := rfl
  have hblamed := htexts doubledComma
  rw [herror] at hblamed
  obtain ⟨k, fault, hfault, -, -, -, hstays⟩ := hblamed
  cases hfault
  refine ⟨htokens _ _ (by decide), herror, ?_, ?_⟩
  · apply hstays
    · decide
    · exact ⟨by decide, [['1']], [['3', '0']], [['2', '3']], by decide, by decide⟩
  · exact (hcount _ _ _).mpr ⟨rfl, by decide, by decide⟩

end Entry

end CronCalendar
