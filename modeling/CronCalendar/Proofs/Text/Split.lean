import CronCalendar.Text.Split

/-!
# Cutting and joining text

Cutting at a separator undoes joining with it, as long as no part holds the separator itself.
-/

namespace CronCalendar.Text

theorem pieces_ne_nil (separates : Char → Bool) (cs : List Char) : pieces separates cs ≠ [] := by
  induction cs with
  | nil => simp [pieces]
  | cons c cs ih =>
    simp only [pieces]
    split
    · simp
    · simpa using ih

theorem pieces_eq_splitOnP (separates : Char → Bool) (cs : List Char) :
    pieces separates cs = cs.splitOnP separates := by
  induction cs with
  | nil => rfl
  | cons c cs ih => rw [pieces, List.splitOnP_cons_eq_if_modifyHead, ih]

theorem pieces_eq_splitOn (separator : Char) (cs : List Char) :
    pieces (· = separator) cs = cs.splitOn separator := by
  rw [pieces_eq_splitOnP, List.splitOn_eq_splitOnP]
  rfl

theorem cut?_append {separator : Char} {before : List Char} (h : separator ∉ before)
    (after : List Char) :
    cut? separator (before ++ separator :: after) = some (before, after) := by
  induction before with
  | nil => simp [cut?]
  | cons c cs ih =>
    have hc : c ≠ separator := fun hc => h (by simp [hc])
    have hcs : separator ∉ cs := fun hcs => h (by simp [hcs])
    simp [cut?, hc, ih hcs]

def before (separator : Char) (cs : List Char) : List Char := cs.takeWhile (· ≠ separator)

def behind (separator : Char) (cs : List Char) : List Char := (cs.dropWhile (· ≠ separator)).tail

theorem cut?_eq_ite (separator : Char) (cs : List Char) :
    cut? separator cs =
      if separator ∈ cs then some (before separator cs, behind separator cs) else none := by
  induction cs with
  | nil => rfl
  | cons c cs ih =>
    by_cases hc : c = separator
    · simp [cut?, hc, before, behind]
    · have hmem : separator ∈ c :: cs ↔ separator ∈ cs := by simp [Ne.symm hc]
      rw [cut?, if_neg hc, ih]
      by_cases hcs : separator ∈ cs
      · simp [hcs, hc, before, behind]
      · simp [hcs, Ne.symm hc]

theorem before_of_not_mem {separator : Char} {cs : List Char} (h : separator ∉ cs) :
    before separator cs = cs := by
  induction cs with
  | nil => rfl
  | cons c cs ih =>
    obtain ⟨hc, hcs⟩ := List.ne_and_not_mem_of_not_mem_cons h
    rw [before, List.takeWhile_cons_of_pos (by simp [Ne.symm hc])]
    exact congrArg (c :: ·) (ih hcs)

theorem forall_mem_intercalate {P : Char → Prop} {separator : Char} (hseparator : P separator)
    {parts : List (List Char)} (h : ∀ part ∈ parts, ∀ c ∈ part, P c) :
    ∀ c ∈ [separator].intercalate parts, P c := by
  induction parts with
  | nil => simp
  | cons part parts ih =>
    obtain ⟨hpart, hparts⟩ := List.forall_mem_cons.mp h
    cases parts with
    | nil => simpa using hpart
    | cons next parts =>
      rw [List.intercalate_cons_cons]
      intro c hc
      rcases List.mem_append.mp hc with hc | hc
      · rcases List.mem_append.mp hc with hc | hc
        · exact hpart c hc
        · rwa [List.mem_singleton.mp hc]
      · exact ih hparts c hc

theorem length_le_intercalate (separator : Char) (parts : List (List Char)) :
    parts.length ≤ ([separator].intercalate parts).length + 1 := by
  induction parts with
  | nil => exact Nat.zero_le _
  | cons part parts ih =>
    cases parts with
    | nil => simp
    | cons next parts =>
      rw [List.intercalate_cons_cons, List.length_append, List.length_append, List.length_cons,
        List.length_singleton]
      omega

theorem beq_eq_false_of_not_mem {separator : Char} {cs : List Char} (h : separator ∉ cs) :
    ∀ c ∈ cs, (c == separator) = false := by
  intro c hc
  exact beq_eq_false_iff_ne.mpr (ne_of_mem_of_not_mem hc h)

theorem splitOn_of_not_mem {separator : Char} {cs : List Char} (h : separator ∉ cs) :
    cs.splitOn separator = [cs] := by
  rw [List.splitOn_eq_splitOnP]
  exact List.splitOnP_eq_singleton (beq_eq_false_of_not_mem h)

theorem splitOn_ended {separator : Char} {lines : List (List Char)}
    (h : ∀ line ∈ lines, separator ∉ line) :
    (lines.flatMap (· ++ [separator])).splitOn separator = lines ++ [[]] := by
  induction lines with
  | nil => rfl
  | cons line lines ih =>
    obtain ⟨hline, hlines⟩ := List.forall_mem_cons.mp h
    have hrest := ih hlines
    rw [List.splitOn_eq_splitOnP] at hrest ⊢
    rw [List.flatMap_cons, List.append_assoc, List.singleton_append,
      List.splitOnP_append_cons_of_forall_mem (beq_eq_false_of_not_mem hline) separator
        (beq_self_eq_true separator), hrest, List.cons_append]

end CronCalendar.Text
