import CronCalendar.Field.Part
import CronCalendar.Proofs.Text.Numeral
import CronCalendar.Proofs.Text.Split

/-!
# The grammar of parts

A part is a base, or a base, a slash and a step from 1 to the greatest 32-bit word; a base is a star,
a number in the range of the kind, or a range within it. `Written` relates each such text to what it
stands for, and `parse` decides it: what is written so is read with that meaning, and every other
text is refused.
-/

namespace CronCalendar

theorem bind_eq_ok_iff {ε α β : Type} {x : Except ε α} {f : α → Except ε β} {b : β} :
    x >>= f = .ok b ↔ ∃ a, x = .ok a ∧ f a = .ok b := by
  cases x <;> simp [bind, Except.bind]

namespace Part

/-- The texts of a base with the first and the last value they name. -/
inductive Base (k : Kind) (stepped : Bool) : List Char → Nat → Nat → Prop
  | star : Base k stepped ['*'] k.least k.greatest
  | range {lo hi : List Char} {start stop : Nat} (hlo : Text.Denotes lo start)
      (hhi : Text.Denotes hi stop) (hleast : k.least ≤ start) (hle : start ≤ stop)
      (hgreatest : stop ≤ k.greatest) : Base k stepped (lo ++ '-' :: hi) start stop
  | number {text : List Char} {n : Nat} (h : Text.Denotes text n) (hleast : k.least ≤ n)
      (hgreatest : n ≤ k.greatest) : Base k stepped text n (if stepped then k.greatest else n)

inductive Written (k : Kind) : List Char → Part → Prop
  | alone {text : List Char} {start stop : Nat} (h : Base k false text start stop) :
      Written k text ⟨start, stop, 1⟩
  | stepped {base text : List Char} {start stop step : Nat} (h : Base k true base start stop)
      (hstep : Text.Denotes text step) (hpos : 1 ≤ step) (hword : step ≤ 2 ^ 32 - 1) :
      Written k (base ++ '/' :: text) ⟨start, stop, step⟩

variable {k : Kind} {stepped : Bool} {text : List Char} {start stop n : Nat} {p : Part}

theorem greatest_lt_size (k : Kind) : k.greatest < UInt32.size := by cases k <;> decide

theorem word?_of_denotes (h : Text.Denotes text n) (hn : n ≤ k.greatest) :
    Text.word? text = some n :=
  Text.word?_eq_some_iff.mpr ⟨h, Nat.lt_of_le_of_lt hn (greatest_lt_size k)⟩

theorem base_of_parseBase (h : parseBase k stepped text = .ok (start, stop)) :
    Base k stepped text start stop := by
  unfold parseBase at h
  split at h
  · next hstar =>
    cases h
    rw [hstar]
    exact .star
  · split at h
    · next lo hi hcut =>
      obtain ⟨rfl, -⟩ := Text.eq_append_of_cut? hcut
      split at h
      · next a b ha hb =>
        split at h
        · contradiction
        · split at h
          · contradiction
          · split at h
            · contradiction
            · cases h
              exact .range (Text.word?_eq_some_iff.mp ha).1 (Text.word?_eq_some_iff.mp hb).1
                (by omega) (by omega) (by omega)
      · contradiction
    · split at h
      · next n hn =>
        split at h
        · contradiction
        · split at h
          · contradiction
          · cases h
            exact .number (Text.word?_eq_some_iff.mp hn).1 (by omega) (by omega)
      · contradiction

theorem parseBase_of_base (h : Base k stepped text start stop) :
    parseBase k stepped text = .ok (start, stop) := by
  cases h with
  | star => rfl
  | @range lo hi _ _ hlo hhi hleast hle hgreatest =>
    have hstar : lo ++ '-' :: hi ≠ ['*'] := by
      intro heq
      have hmem : '-' ∈ lo ++ '-' :: hi := by simp
      rw [heq] at hmem
      exact absurd hmem (by decide)
    have hcut : Text.cut? '-' (lo ++ '-' :: hi) = some (lo, hi) :=
      Text.cut?_append (hlo.not_mem (by decide)) hi
    simp only [parseBase, if_neg hstar, hcut, word?_of_denotes hlo (Nat.le_trans hle hgreatest),
      word?_of_denotes hhi hgreatest, if_neg (Nat.not_lt.mpr hleast),
      if_neg (Nat.not_lt.mpr hgreatest), if_neg (Nat.not_lt.mpr hle)]
  | number hn hleast hgreatest =>
    have hstar : text ≠ ['*'] := by
      rintro rfl
      exact absurd List.mem_cons_self (hn.not_mem (by decide))
    have hcut : Text.cut? '-' text = none := Text.cut?_eq_none_iff.mpr (hn.not_mem (by decide))
    simp only [parseBase, if_neg hstar, hcut, word?_of_denotes hn hgreatest,
      if_neg (Nat.not_lt.mpr hleast), if_neg (Nat.not_lt.mpr hgreatest)]

theorem parseStep_eq_ok_iff :
    parseStep text = .ok n ↔ Text.Denotes text n ∧ 1 ≤ n ∧ n ≤ 2 ^ 32 - 1 := by
  have hword : Text.word? text = some n ↔ Text.Denotes text n ∧ n ≤ 2 ^ 32 - 1 := by
    rw [Text.word?_eq_some_iff, Nat.lt_iff_le_pred (by decide)]
    rfl
  rw [and_comm (a := 1 ≤ n), ← and_assoc, ← hword]
  unfold parseStep
  split
  · next m hm =>
    rw [hm]
    split
    · next hpos =>
      constructor
      · intro h
        cases h
        exact ⟨rfl, hpos⟩
      · rintro ⟨h, -⟩
        cases h
        rfl
    · next hzero =>
      simp only [reduceCtorEq, false_iff]
      rintro ⟨h, hpos⟩
      cases h
      exact hzero hpos
  · next hnone => simp [hnone]

theorem Base.marks (h : Base k stepped text start stop) :
    ∀ c ∈ text, c.isDigit = true ∨ c ∈ ['*', '-'] := by
  intro c hc
  cases h with
  | star => exact .inr (by simpa using Or.inl hc)
  | range hlo hhi =>
    rcases List.mem_append.mp hc with hc | hc
    · exact .inl (hlo.digits c hc)
    · rcases List.mem_cons.mp hc with rfl | hc
      · exact .inr (by decide)
      · exact .inl (hhi.digits c hc)
  | number hn => exact .inl (hn.digits c hc)

theorem Base.slash_not_mem (h : Base k stepped text start stop) : '/' ∉ text := by
  intro hmem
  rcases h.marks '/' hmem with hdigit | hmark
  · exact absurd hdigit (by decide)
  · exact absurd hmark (by decide)

theorem Base.ne_nil (h : Base k stepped text start stop) : text ≠ [] := by
  cases h with
  | star => exact List.cons_ne_nil _ _
  | range hlo hhi => exact List.append_ne_nil_of_right_ne_nil _ (List.cons_ne_nil _ _)
  | number hn => exact hn.ne_nil

theorem Written.marks (h : Written k text p) :
    ∀ c ∈ text, c.isDigit = true ∨ c ∈ ['*', '-', '/'] := by
  intro c hc
  have hbase : c ∈ ['*', '-'] → c ∈ ['*', '-', '/'] := List.mem_append_left ['/']
  cases h with
  | alone h => exact (h.marks c hc).imp_right hbase
  | stepped h hstep =>
    rcases List.mem_append.mp hc with hc | hc
    · exact (h.marks c hc).imp_right hbase
    · rcases List.mem_cons.mp hc with rfl | hc
      · exact .inr (by decide)
      · exact .inl (hstep.digits c hc)

theorem written_of_parse (h : parse k text = .ok p) : Written k text p := by
  unfold parse at h
  split at h
  · split at h
    · contradiction
    · obtain ⟨⟨start, stop⟩, hbase, heq⟩ := bind_eq_ok_iff.mp h
      cases heq
      exact .alone (base_of_parseBase hbase)
  · next base step hcut =>
    obtain ⟨rfl, -⟩ := Text.eq_append_of_cut? hcut
    split at h
    · contradiction
    · obtain ⟨n, hstep, h⟩ := bind_eq_ok_iff.mp h
      obtain ⟨⟨start, stop⟩, hbase, heq⟩ := bind_eq_ok_iff.mp h
      cases heq
      obtain ⟨hdenotes, hpos, hword⟩ := parseStep_eq_ok_iff.mp hstep
      exact .stepped (base_of_parseBase hbase) hdenotes hpos hword

theorem parse_of_written (h : Written k text p) : parse k text = .ok p := by
  cases h with
  | alone h =>
    have hcut : Text.cut? '/' text = none := Text.cut?_eq_none_iff.mpr h.slash_not_mem
    simp only [parse, hcut, if_neg h.ne_nil, parseBase_of_base h]
    rfl
  | @stepped base step _ _ n h hstep hpos hword =>
    have hcut : Text.cut? '/' (base ++ '/' :: step) = some (base, step) :=
      Text.cut?_append h.slash_not_mem step
    have hn : parseStep step = .ok n := parseStep_eq_ok_iff.mpr ⟨hstep, hpos, hword⟩
    simp only [parse, hcut, if_neg h.ne_nil, hn, parseBase_of_base h]
    rfl

theorem Written.unique {q : Part} (hp : Written k text p) (hq : Written k text q) : p = q := by
  have h := parse_of_written hp
  rw [parse_of_written hq] at h
  exact (Except.ok.inj h).symm

theorem Base.bounds (h : Base k stepped text start stop) :
    k.least ≤ start ∧ start ≤ stop ∧ stop ≤ k.greatest := by
  have hk : k.least ≤ k.greatest := by cases k <;> decide
  cases h with
  | star => exact ⟨Nat.le_refl _, hk, Nat.le_refl _⟩
  | range _ _ hleast hle hgreatest => exact ⟨hleast, hle, hgreatest⟩
  | number _ hleast hgreatest => cases stepped <;> simp <;> omega

theorem parse_bounds (h : parse k text = .ok p) :
    k.least ≤ p.start ∧ p.start ≤ p.stop ∧ p.stop ≤ k.greatest := by
  cases written_of_parse h with
  | alone hbase => exact hbase.bounds
  | stepped hbase => exact hbase.bounds

theorem admits_start (h : p.start ≤ p.stop) : p.Admits p.start := by
  simp [Admits, h]

end Part

end CronCalendar
