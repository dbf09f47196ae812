import CronCalendar.Proofs.Text.Split

/-!
# Tokens and single spaces

A token is a nonempty text without blanks. Cutting a text at its blanks gives tokens, and joining
tokens by single spaces loses nothing: cutting gives them again. So a text is its own tokens joined
by spaces exactly when it is some tokens joined by spaces.
-/

namespace CronCalendar.Text

structure Token (cs : List Char) : Prop where
  ne_nil : cs ≠ []
  not_blank : ∀ c ∈ cs, isBlank c = false

def Spaced (cs : List Char) : Prop :=
  ∃ ts : List (List Char), (∀ t ∈ ts, Token t) ∧ cs = [' '].intercalate ts

theorem isBlank_of_isDigit {c : Char} (h : c.isDigit = true) : isBlank c = false := by
  have hblanks : blanks.all (fun b => !b.isDigit) = true := by decide
  refine Bool.eq_false_iff.mpr fun hblank => ?_
  have hnot := List.all_eq_true.mp hblanks c (List.contains_iff_mem.mp hblank)
  rw [h] at hnot
  exact Bool.false_ne_true hnot

theorem tokens_eq_splitOnP (cs : List Char) :
    tokens cs = (cs.splitOnP isBlank).filter (· ≠ []) := by
  rw [tokens, pieces_eq_splitOnP]

theorem not_separates_of_mem_piece {separates : Char → Bool} {cs piece : List Char}
    (h : piece ∈ pieces separates cs) : ∀ c ∈ piece, separates c = false := by
  induction cs generalizing piece with
  | nil => simp_all [pieces]
  | cons first cs ih =>
    obtain ⟨head, rest, hpieces⟩ := List.exists_cons_of_ne_nil (pieces_ne_nil separates cs)
    simp only [pieces] at h
    split at h
    · rcases List.mem_cons.mp h with rfl | h
      · simp
      · exact ih h
    · next hfirst =>
      rw [hpieces] at h ih
      rcases List.mem_cons.mp h with rfl | h
      · refine List.forall_mem_cons.mpr ⟨Bool.eq_false_iff.mpr hfirst, ih List.mem_cons_self⟩
      · exact ih (List.mem_cons_of_mem _ h)

theorem not_mem_of_mem_splitOn {separator : Char} {cs piece : List Char}
    (h : piece ∈ cs.splitOn separator) : separator ∉ piece := by
  rw [← pieces_eq_splitOn] at h
  intro hmem
  have hnot := not_separates_of_mem_piece h separator hmem
  simp at hnot

theorem token_of_mem_tokens {cs t : List Char} (h : t ∈ tokens cs) : Token t := by
  obtain ⟨hpiece, hne⟩ := List.mem_filter.mp h
  exact ⟨of_decide_eq_true hne, not_separates_of_mem_piece hpiece⟩

variable {cs : List Char} {ts : List (List Char)}

theorem pieces_intercalate (h : ∀ t ∈ ts, Token t) (hne : ts ≠ []) :
    pieces isBlank ([' '].intercalate ts) = ts := by
  induction ts with
  | nil => contradiction
  | cons t ts ih =>
    obtain ⟨ht, hts⟩ := List.forall_mem_cons.mp h
    cases ts with
    | nil =>
      rw [List.intercalate_singleton, pieces_eq_splitOnP]
      exact List.splitOnP_eq_singleton ht.not_blank
    | cons next ts =>
      have hrest := ih hts (List.cons_ne_nil _ _)
      rw [pieces_eq_splitOnP] at hrest ⊢
      rw [List.intercalate_cons_cons, List.append_assoc, List.singleton_append,
        List.splitOnP_append_cons_of_forall_mem ht.not_blank ' ' (by decide), hrest]

theorem tokens_intercalate (h : ∀ t ∈ ts, Token t) : tokens ([' '].intercalate ts) = ts := by
  by_cases hne : ts = []
  · subst hne
    rfl
  · rw [tokens, pieces_intercalate h hne]
    exact List.filter_eq_self.mpr fun t ht => decide_eq_true (h t ht).ne_nil

theorem intercalate_tokens_eq_iff : [' '].intercalate (tokens cs) = cs ↔ Spaced cs := by
  constructor
  · intro h
    exact ⟨tokens cs, fun _ => token_of_mem_tokens, h.symm⟩
  · rintro ⟨ts, hts, rfl⟩
    rw [tokens_intercalate hts]

end CronCalendar.Text
