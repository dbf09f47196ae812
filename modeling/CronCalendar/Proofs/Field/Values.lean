import CronCalendar.Field.Basic
import CronCalendar.Proofs.Field.Part

/-!
# Values of a field and their neighbours

The values of a field are ascending, lie in the range of its kind and are never absent: every part
admits at least its own start. From this the queries are what their names say. `next?` is the least
value from a number on, `prev?` the greatest up to it, and each of them fails only where no such
value exists.
-/

namespace CronCalendar

namespace Ascending

variable {l : List Nat}

theorem head?_eq_some_iff (h : l.Pairwise (· < ·)) {a : Nat} :
    l.head? = some a ↔ a ∈ l ∧ ∀ b ∈ l, a ≤ b := by
  cases l with
  | nil => simp
  | cons c cs =>
    have hc : ∀ b ∈ cs, c < b := (List.pairwise_cons.mp h).1
    constructor
    · intro ha
      obtain rfl : c = a := by simpa using ha
      refine ⟨List.mem_cons_self, ?_⟩
      intro b hb
      rcases List.mem_cons.mp hb with rfl | hb
      · exact Nat.le_refl _
      · exact Nat.le_of_lt (hc b hb)
    · rintro ⟨ha, hle⟩
      have hac := hle c List.mem_cons_self
      rcases List.mem_cons.mp ha with rfl | ha
      · rfl
      · have := hc a ha
        omega

theorem getLast?_eq_some_iff (h : l.Pairwise (· < ·)) {a : Nat} :
    l.getLast? = some a ↔ a ∈ l ∧ ∀ b ∈ l, b ≤ a := by
  constructor
  · intro ha
    obtain ⟨ys, rfl⟩ := List.getLast?_eq_some_iff.mp ha
    have hys := (List.pairwise_append.mp h).2.2
    refine ⟨by simp, ?_⟩
    intro b hb
    rcases List.mem_append.mp hb with hb | hb
    · exact Nat.le_of_lt (hys b hb a (by simp))
    · exact Nat.le_of_eq (List.mem_singleton.mp hb)
  · rintro ⟨ha, hle⟩
    cases hlast : l.getLast? with
    | none => simp [List.getLast?_eq_none_iff.mp hlast] at ha
    | some c =>
      obtain ⟨ys, rfl⟩ := List.getLast?_eq_some_iff.mp hlast
      have hys := (List.pairwise_append.mp h).2.2
      have hca := hle c (by simp)
      rcases List.mem_append.mp ha with ha | ha
      · have := hys a ha c (by simp)
        omega
      · rw [List.mem_singleton.mp ha]

theorem dropWhile_eq_filter (h : l.Pairwise (· < ·)) (v : Nat) :
    l.dropWhile (· < v) = l.filter (v ≤ ·) := by
  induction l with
  | nil => rfl
  | cons c cs ih =>
    have hc : ∀ b ∈ cs, c < b := (List.pairwise_cons.mp h).1
    by_cases hv : c < v
    · simp [hv, Nat.not_le.mpr hv, ih h.of_cons]
    · have hcs : cs.filter (v ≤ ·) = cs := by
        refine List.filter_eq_self.mpr fun b hb => decide_eq_true ?_
        have := hc b hb
        omega
      simp [hv, Nat.not_lt.mp hv, hcs]

theorem takeWhile_eq_filter (h : l.Pairwise (· < ·)) (v : Nat) :
    l.takeWhile (· ≤ v) = l.filter (· ≤ v) := by
  induction l with
  | nil => rfl
  | cons c cs ih =>
    have hc : ∀ b ∈ cs, c < b := (List.pairwise_cons.mp h).1
    by_cases hv : c ≤ v
    · simp [hv, ih h.of_cons]
    · have hcs : cs.filter (· ≤ v) = [] := by
        refine List.filter_eq_nil_iff.mpr fun b hb => ?_
        have := hc b hb
        simp only [decide_eq_true_eq]
        omega
      simp [hv, hcs]

end Ascending

namespace Field

variable {k : Kind}

theorem parseParts_cons_eq_ok_iff {part : List Char} {rest : List (List Char)}
    {parts : List Part} :
    parseParts k (part :: rest) = .ok parts ↔
      ∃ p ps, Part.Written k part p ∧ parseParts k rest = .ok ps ∧ parts = p :: ps := by
  simp only [parseParts]
  constructor
  · intro h
    split at h
    · contradiction
    · next p hp =>
      cases hps : parseParts k rest with
      | error fault => simp [hps, Except.map] at h
      | ok ps =>
        simp only [hps, Except.map, Except.ok.injEq] at h
        exact ⟨p, ps, Part.written_of_parse hp, rfl, h.symm⟩
  · rintro ⟨p, ps, hp, hps, rfl⟩
    rw [Part.parse_of_written hp, hps]
    rfl

theorem exists_parts (f : Field k) :
    ∃ parts, parseParts k (Text.pieces (· = ',') f.raw.toList) = .ok parts ∧
      f.values = expand k parts := by
  have h := f.values_of_raw
  unfold valuesOf at h
  split at h
  · contradiction
  · cases hp : parseParts k (Text.pieces (· = ',') f.raw.toList) with
    | error fault => simp [hp, Except.map] at h
    | ok parts =>
      simp only [hp, Except.map, Except.ok.injEq] at h
      exact ⟨parts, rfl, h.symm⟩

theorem values_ascending (f : Field k) : f.values.Pairwise (· < ·) := by
  obtain ⟨parts, -, h⟩ := f.exists_parts
  rw [h]
  exact k.domain_ascending.filter _

theorem values_ne_nil (f : Field k) : f.values ≠ [] := by
  obtain ⟨parts, hparts, h⟩ := f.exists_parts
  obtain ⟨text, texts, htexts⟩ := List.exists_cons_of_ne_nil
    (Text.pieces_ne_nil (· = ',') f.raw.toList)
  rw [htexts] at hparts
  obtain ⟨p, ps, hp, -, rfl⟩ := parseParts_cons_eq_ok_iff.mp hparts
  have hbounds := Part.parse_bounds (Part.parse_of_written hp)
  have hmem : p.start ∈ f.values := by
    rw [h, expand, List.mem_filter]
    exact ⟨Kind.mem_domain.mpr (by omega), by simp [Part.admits_start hbounds.2.1]⟩
  exact List.ne_nil_of_mem hmem

theorem mem_bounds {f : Field k} {v : Nat} (h : v ∈ f) : k.least ≤ v ∧ v ≤ k.greatest := by
  obtain ⟨parts, -, hvalues⟩ := f.exists_parts
  change v ∈ f.values at h
  rw [hvalues, expand, List.mem_filter] at h
  exact Kind.mem_domain.mp h.1

variable {f : Field k} {v w : Nat}

theorem next?_eq_some_iff :
    f.next? v = some w ↔ w ∈ f ∧ v ≤ w ∧ ∀ x ∈ f, v ≤ x → w ≤ x := by
  rw [next?, Ascending.dropWhile_eq_filter f.values_ascending,
    Ascending.head?_eq_some_iff (f.values_ascending.filter _)]
  simp only [List.mem_filter, decide_eq_true_eq, and_imp, and_assoc]
  rfl

theorem next?_eq_none_iff : f.next? v = none ↔ ∀ x ∈ f, x < v := by
  rw [next?, Ascending.dropWhile_eq_filter f.values_ascending, List.head?_eq_none_iff,
    List.filter_eq_nil_iff]
  simp only [decide_eq_true_eq, Nat.not_le]
  rfl

theorem prev?_eq_some_iff :
    f.prev? v = some w ↔ w ∈ f ∧ w ≤ v ∧ ∀ x ∈ f, x ≤ v → x ≤ w := by
  rw [prev?, Ascending.takeWhile_eq_filter f.values_ascending,
    Ascending.getLast?_eq_some_iff (f.values_ascending.filter _)]
  simp only [List.mem_filter, decide_eq_true_eq, and_imp, and_assoc]
  rfl

theorem prev?_eq_none_iff : f.prev? v = none ↔ ∀ x ∈ f, v < x := by
  rw [prev?, Ascending.takeWhile_eq_filter f.values_ascending, List.getLast?_eq_none_iff,
    List.filter_eq_nil_iff]
  simp only [decide_eq_true_eq, Nat.not_le]
  rfl

theorem next?_of_mem (h : v ∈ f) : f.next? v = some v :=
  next?_eq_some_iff.mpr ⟨h, Nat.le_refl v, fun _ _ hle => hle⟩

theorem prev?_of_mem (h : v ∈ f) : f.prev? v = some v :=
  prev?_eq_some_iff.mpr ⟨h, Nat.le_refl v, fun _ _ hle => hle⟩

theorem first_least (f : Field k) : f.first ∈ f ∧ ∀ x ∈ f, f.first ≤ x := by
  apply (Ascending.head?_eq_some_iff f.values_ascending).mp
  obtain ⟨v, vs, h⟩ := List.exists_cons_of_ne_nil f.values_ne_nil
  simp [first, h]

theorem last_greatest (f : Field k) : f.last ∈ f ∧ ∀ x ∈ f, x ≤ f.last := by
  apply (Ascending.getLast?_eq_some_iff f.values_ascending).mp
  simp [last, List.getLastD_eq_getLast?, List.getLast?_eq_some_getLast f.values_ne_nil]

theorem first_mem (f : Field k) : f.first ∈ f := f.first_least.1

theorem first_le (h : v ∈ f) : f.first ≤ v := f.first_least.2 v h

theorem last_mem (f : Field k) : f.last ∈ f := f.last_greatest.1

theorem le_last (h : v ∈ f) : v ≤ f.last := f.last_greatest.2 v h

end Field

end CronCalendar
