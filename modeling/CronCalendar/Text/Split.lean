import CronCalendar.Text.Blank

/-!
# Cutting text

`pieces` cuts at every separator and keeps empty pieces, so a text with `n` separators has `n + 1`
pieces. `cut?` cuts once, at the first separator. `tokens` are the nonempty pieces between blanks.
-/

namespace CronCalendar.Text

def pieces (separates : Char → Bool) : List Char → List (List Char)
  | [] => [[]]
  | c :: cs =>
    if separates c then [] :: pieces separates cs
    else (pieces separates cs).modifyHead (c :: ·)

def tokens (cs : List Char) : List (List Char) :=
  (pieces isBlank cs).filter (· ≠ [])

def cut? (separator : Char) : List Char → Option (List Char × List Char)
  | [] => none
  | c :: cs =>
    if c = separator then some ([], cs)
    else (cut? separator cs).map fun (before, after) => (c :: before, after)

theorem cut?_eq_none_iff {s : Char} {cs : List Char} : cut? s cs = none ↔ s ∉ cs := by
  induction cs with
  | nil => simp [cut?]
  | cons c cs ih =>
    by_cases h : c = s
    · simp [cut?, h]
    · simp [cut?, h, ih, Ne.symm h]

theorem eq_append_of_cut? {s : Char} {cs before after : List Char}
    (h : cut? s cs = some (before, after)) : cs = before ++ s :: after ∧ s ∉ before := by
  induction cs generalizing before with
  | nil => simp [cut?] at h
  | cons c cs ih =>
    by_cases hc : c = s
    · simp only [cut?, hc, if_true, Option.some.injEq, Prod.mk.injEq] at h
      obtain ⟨rfl, rfl⟩ := h
      simp [hc]
    · simp only [cut?, hc, if_false, Option.map_eq_some_iff, Prod.mk.injEq, Prod.exists] at h
      obtain ⟨b, a, hcut, rfl, rfl⟩ := h
      obtain ⟨hcs, hb⟩ := ih hcut
      exact ⟨by simp [hcs], by simp [hb, Ne.symm hc]⟩

end CronCalendar.Text
