import CronCalendar.Text.Quoted
import CronCalendar.Proofs.Text.Split

/-!
# Reading JSON

`Json.decode` reads any JSON text. The members of an object stay in the order and with the names
that they are written with, and a number stays the text that it is written as. Each reader takes what
it reads from the front of the text and passes the rest on. Those that call themselves count down
from the length of the text, which takes no more calls than that.

Quoting is undone by reading, one character at a time, so an object written from quoted texts is
read as those texts whatever they hold.
-/

namespace CronCalendar

inductive Json where
  | null
  | boolean (b : Bool)
  | number (literal : String)
  | string (s : String)
  | array (elements : List Json)
  | object (members : List (String × Json))

namespace Json

def skip (cs : List Char) : List Char := cs.dropWhile ([' ', '\t', '\n', '\r'].contains ·)

def hex? (c : Char) : Option Nat :=
  if c.isDigit then some (c.toNat - '0'.toNat)
  else if 'a' ≤ c ∧ c ≤ 'f' then some (c.toNat - 'a'.toNat + 10)
  else if 'A' ≤ c ∧ c ≤ 'F' then some (c.toNat - 'A'.toNat + 10)
  else none

def unit? : List Char → Option (Nat × List Char)
  | a :: b :: c :: d :: rest => do
    return (0x1000 * (← hex? a) + 0x100 * (← hex? b) + 0x10 * (← hex? c) + (← hex? d), rest)
  | _ => none

/-- What follows `\u`: a unit that is a character by itself, or two that make one together. -/
def units? (cs : List Char) : Option (Char × List Char) := do
  let (unit, rest) ← unit? cs
  if 0xd800 ≤ unit ∧ unit < 0xdc00 then
    match rest with
    | '\\' :: 'u' :: rest =>
      let (low, rest) ← unit? rest
      if 0xdc00 ≤ low ∧ low < 0xe000 then
        return (Char.ofNat (0x10000 + 0x400 * (unit - 0xd800) + (low - 0xdc00)), rest)
      else none
    | _ => none
  else if 0xdc00 ≤ unit ∧ unit < 0xe000 then none
  else return (Char.ofNat unit, rest)

def letters : List (Char × Char) :=
  [('"', '"'), ('\\', '\\'), ('/', '/'), ('b', '\x08'), ('f', '\x0c'), ('n', '\n'), ('r', '\r'),
    ('t', '\t')]

def escaped? : List Char → Option (Char × List Char)
  | [] => none
  | c :: rest => if c = 'u' then units? rest else (letters.lookup c).map (·, rest)

def character? : List Char → Option (Char × List Char)
  | [] => none
  | c :: rest =>
    if c = '\\' then escaped? rest
    else if c.toNat < 0x20 then none
    else some (c, rest)

def characters : Nat → List Char → Option (List Char × List Char)
  | 0, _ => none
  | left + 1, cs =>
    if cs.head? = some '"' then some ([], cs.tail)
    else do
      let (c, rest) ← character? cs
      let (s, rest) ← characters left rest
      return (c :: s, rest)

def string? (cs : List Char) : Option (String × List Char) :=
  (characters cs.length cs).map fun (s, rest) => (String.ofList s, rest)

def digits? (cs : List Char) : Option (List Char) :=
  if (cs.head?.any Char.isDigit) then some (cs.dropWhile Char.isDigit) else none

def whole? : List Char → Option (List Char)
  | '0' :: rest => some rest
  | cs => digits? cs

def fraction? : List Char → Option (List Char)
  | '.' :: rest => digits? rest
  | cs => some cs

def exponent? : List Char → Option (List Char)
  | [] => some []
  | c :: rest =>
    if c = 'e' ∨ c = 'E' then
      match rest with
      | '+' :: rest => digits? rest
      | '-' :: rest => digits? rest
      | rest => digits? rest
    else some (c :: rest)

def number? (cs : List Char) : Option (Json × List Char) := do
  let rest ← whole? (if cs.head? = some '-' then cs.tail else cs)
  let rest ← fraction? rest
  let rest ← exponent? rest
  return (.number (String.ofList (cs.take (cs.length - rest.length))), rest)

def literals : List (List Char × Json) :=
  [("null".toList, .null), ("true".toList, .boolean true), ("false".toList, .boolean false)]

def atom? (cs : List Char) : Option (Json × List Char) :=
  match literals.find? fun (text, _) => text.isPrefixOf cs with
  | some (text, v) => some (v, cs.drop text.length)
  | none => number? cs

def sequence {α : Type} (close : Char) (read : List Char → Option (α × List Char)) :
    Nat → List Char → Option (List α × List Char)
  | 0, _ => none
  | left + 1, cs => do
    let (a, rest) ← read cs
    match skip rest with
    | [] => none
    | c :: rest =>
      if c = close then return ([a], rest)
      else if c = ',' then
        let (as, rest) ← sequence close read left rest
        return (a :: as, rest)
      else none

def enclosed {α : Type} (close : Char) (read : List Char → Option (α × List Char))
    (cs : List Char) : Option (List α × List Char) :=
  if (skip cs).head? = some close then some ([], (skip cs).tail)
  else sequence close read cs.length cs

def member? (read : List Char → Option (Json × List Char)) (cs : List Char) :
    Option ((String × Json) × List Char) :=
  match skip cs with
  | '"' :: rest => do
    let (name, rest) ← string? rest
    match skip rest with
    | ':' :: rest =>
      let (v, rest) ← read rest
      return ((name, v), rest)
    | _ => none
  | _ => none

def value : Nat → List Char → Option (Json × List Char)
  | 0, _ => none
  | left + 1, cs =>
    match skip cs with
    | '"' :: rest => (string? rest).map fun (s, rest) => (.string s, rest)
    | '[' :: rest => (enclosed ']' (value left) rest).map fun (vs, rest) => (.array vs, rest)
    | '\x7b' :: rest =>
      (enclosed '\x7d' (member? (value left)) rest).map fun (ms, rest) => (.object ms, rest)
    | cs => atom? cs

def decode (cs : List Char) : Option Json :=
  match value cs.length cs with
  | some (v, rest) => if skip rest = [] then some v else none
  | none => none

end Json

namespace Text

theorem escape_cases (c : Char) :
    (∃ letter, (letter, c) ∈ Json.letters ∧ escape c = ['\\', letter]) ∨
    c.toNat < 0x20 ∧
      escape c = ['\\', 'u', '0', '0', hexDigit (c.toNat / 16), hexDigit (c.toNat % 16)] ∨
    escape c = [c] ∧ c ≠ '"' ∧ c ≠ '\\' ∧ 0x20 ≤ c.toNat := by
  by_cases hletter : c ∈ ['"', '\\', '\x08', '\t', '\n', '\x0c', '\r']
  · simp only [List.mem_cons, List.not_mem_nil, or_false] at hletter
    apply Or.inl
    rcases hletter with rfl | rfl | rfl | rfl | rfl | rfl | rfl <;>
      exact ⟨_, by simp [Json.letters], rfl⟩
  · simp only [List.mem_cons, List.not_mem_nil, or_false, not_or] at hletter
    obtain ⟨hquote, hbackslash, hb, ht, hn, hf, hr⟩ := hletter
    simp only [escape, hquote, hbackslash, hb, ht, hn, hf, hr, if_false]
    by_cases hcontrol : c.toNat < 0x20
    · exact .inr (.inl ⟨hcontrol, if_pos hcontrol⟩)
    · exact .inr (.inr ⟨if_neg hcontrol, hquote, hbackslash, Nat.le_of_not_lt hcontrol⟩)

theorem hexDigit_printable : ∀ n < 16, 0x20 ≤ (hexDigit n).toNat := by decide

theorem escape_printable (c : Char) : ∀ d ∈ escape c, 0x20 ≤ d.toNat := by
  rcases escape_cases c with ⟨letter, hmem, hescape⟩ | ⟨hcontrol, hescape⟩ | ⟨hescape, -, -, hprint⟩
  · have hletters : ∀ p ∈ Json.letters, 0x20 ≤ p.1.toNat := by decide
    have hletter := hletters _ hmem
    rw [hescape]
    simp [hletter]
  · have hhigh := hexDigit_printable (c.toNat / 16) (by omega)
    have hlow := hexDigit_printable (c.toNat % 16) (Nat.mod_lt _ (by decide))
    rw [hescape]
    simp [hhigh, hlow]
  · rw [hescape]
    simpa using hprint

theorem escape_ne_nil (c : Char) : escape c ≠ [] := by
  rcases escape_cases c with ⟨letter, -, hescape⟩ | ⟨-, hescape⟩ | ⟨hescape, -⟩ <;> simp [hescape]

theorem length_le_escape (cs : List Char) : cs.length ≤ (cs.flatMap escape).length := by
  induction cs with
  | nil => exact Nat.le_refl _
  | cons c cs ih =>
    have hpos := List.length_pos_iff.mpr (escape_ne_nil c)
    rw [List.flatMap_cons, List.length_append, List.length_cons]
    omega

end Text

namespace Json

theorem hex?_hexDigit : ∀ n < 16, hex? (Text.hexDigit n) = some n := by decide

theorem units?_hexDigit {c : Char} (h : c.toNat < 0x20) (rest : List Char) :
    units? ('0' :: '0' :: Text.hexDigit (c.toNat / 16) :: Text.hexDigit (c.toNat % 16) :: rest) =
      some (c, rest) := by
  have hhigh := hex?_hexDigit (c.toNat / 16) (by omega)
  have hlow := hex?_hexDigit (c.toNat % 16) (Nat.mod_lt _ (by decide))
  have hzero : hex? '0' = some 0 := rfl
  have hunit : unit? ('0' :: '0' :: Text.hexDigit (c.toNat / 16) ::
      Text.hexDigit (c.toNat % 16) :: rest) = some (c.toNat, rest) := by
    simp only [unit?, hhigh, hlow, hzero]
    simp [Nat.div_add_mod]
  have hfirst : ¬ (0xd800 ≤ c.toNat ∧ c.toNat < 0xdc00) := by omega
  have hsecond : ¬ (0xdc00 ≤ c.toNat ∧ c.toNat < 0xe000) := by omega
  simp [units?, hunit, hfirst, hsecond]

theorem escaped?_letter {letter c : Char} (h : (letter, c) ∈ letters) (rest : List Char) :
    escaped? (letter :: rest) = some (c, rest) := by
  simp only [letters, List.mem_cons, Prod.mk.injEq, List.not_mem_nil, or_false] at h
  rcases h with ⟨rfl, rfl⟩ | ⟨rfl, rfl⟩ | ⟨rfl, rfl⟩ | ⟨rfl, rfl⟩ | ⟨rfl, rfl⟩ | ⟨rfl, rfl⟩ |
    ⟨rfl, rfl⟩ | ⟨rfl, rfl⟩ <;> rfl

theorem character?_escape (c : Char) (rest : List Char) :
    character? (Text.escape c ++ rest) = some (c, rest) := by
  rcases Text.escape_cases c with ⟨letter, hmem, hescape⟩ | ⟨hcontrol, hescape⟩ |
    ⟨hescape, -, hbackslash, hprint⟩
  · rw [hescape]
    exact escaped?_letter hmem rest
  · rw [hescape]
    exact units?_hexDigit hcontrol rest
  · rw [hescape]
    simp [character?, hbackslash, Nat.not_lt.mpr hprint]

theorem head?_escape (c : Char) (rest : List Char) :
    (Text.escape c ++ rest).head? ≠ some '"' := by
  rcases Text.escape_cases c with ⟨letter, -, hescape⟩ | ⟨-, hescape⟩ | ⟨hescape, hquote, -⟩
  · simp [hescape]
  · simp [hescape]
  · simp [hescape, hquote]

theorem characters_escape (s rest : List Char) {left : Nat} (h : s.length < left) :
    characters left (s.flatMap Text.escape ++ '"' :: rest) = some (s, rest) := by
  induction s generalizing left with
  | nil =>
    obtain ⟨left, rfl⟩ := Nat.exists_eq_add_of_lt h
    simp [characters]
  | cons c s ih =>
    cases left with
    | zero => contradiction
    | succ left =>
      rw [List.flatMap_cons, List.append_assoc, characters, if_neg (head?_escape c _),
        character?_escape]
      simp [ih (Nat.lt_of_succ_lt_succ h)]

theorem string?_quote (s : String) (rest : List Char) :
    string? (s.toList.flatMap Text.escape ++ '"' :: rest) = some (s, rest) := by
  have hlength : s.toList.length < (s.toList.flatMap Text.escape ++ '"' :: rest).length := by
    have hescape := Text.length_le_escape s.toList
    rw [List.length_append, List.length_cons]
    omega
  rw [string?, characters_escape _ _ hlength]
  simp

def memberText (m : String × String) : List Char :=
  (Text.quote m.1).toList ++ ':' :: (Text.quote m.2).toList

def membersText (ms : List (String × String)) : List Char :=
  [','].intercalate (ms.map memberText) ++ ['\x7d']

def objectText (ms : List (String × String)) : List Char := '\x7b' :: membersText ms

theorem quote_toList (s : String) :
    (Text.quote s).toList = '"' :: (s.toList.flatMap Text.escape ++ ['"']) := by
  simp [Text.quote]

theorem value_quote (s : String) (rest : List Char) (left : Nat) :
    value (left + 1) ((Text.quote s).toList ++ rest) = some (.string s, rest) := by
  have hstring := string?_quote s rest
  rw [quote_toList, List.cons_append, List.append_assoc]
  change (string? _).map _ = _
  rw [List.singleton_append, hstring]
  rfl

theorem member?_memberText {read : List Char → Option (Json × List Char)} {m : String × String}
    (hread : ∀ rest, read ((Text.quote m.2).toList ++ rest) = some (.string m.2, rest))
    (rest : List Char) :
    member? read (memberText m ++ rest) = some (m.map id .string, rest) := by
  have htext : memberText m ++ rest =
      '"' :: (m.1.toList.flatMap Text.escape ++ '"' :: ':' :: ((Text.quote m.2).toList ++ rest)) := by
    simp [memberText, quote_toList m.1]
  have hquote (cs : List Char) : skip ('"' :: cs) = '"' :: cs := rfl
  have hcolon (cs : List Char) : skip (':' :: cs) = ':' :: cs := rfl
  rw [htext, member?, hquote]
  simp only [string?_quote, hcolon, hread, Option.bind_eq_bind, Option.bind_some]
  rfl

section sequence

variable {α β : Type} {close : Char} {read : List Char → Option (β × List Char)}
  {write : α → List Char} {result : α → β}

theorem sequence_comma {a : α} (ha : ∀ rest, read (write a ++ rest) = some (result a, rest))
    (hcomma : close ≠ ',') (left : Nat) (cs : List Char) :
    sequence close read (left + 1) (write a ++ ',' :: cs) =
      (sequence close read left cs).map fun (as, rest) => (result a :: as, rest) := by
  have hskip : skip (',' :: cs) = ',' :: cs := rfl
  rw [sequence, ha]
  simp only [Option.bind_eq_bind, Option.bind_some, hskip, hcomma.symm, if_true, if_false]
  cases sequence close read left cs <;> rfl

theorem sequence_intercalate (hclose : ∀ rest, skip (close :: rest) = close :: rest)
    (hcomma : close ≠ ',') {items : List α} (hne : items ≠ [])
    (hread : ∀ a ∈ items, ∀ rest, read (write a ++ rest) = some (result a, rest))
    (rest : List Char) {left : Nat} (hleft : items.length ≤ left) :
    sequence close read left ([','].intercalate (items.map write) ++ close :: rest) =
      some (items.map result, rest) := by
  induction items generalizing left with
  | nil => contradiction
  | cons a items ih =>
    obtain ⟨ha, hitems⟩ := List.forall_mem_cons.mp hread
    cases left with
    | zero => contradiction
    | succ left =>
      cases items with
      | nil =>
        rw [sequence]
        simp [ha, hclose]
      | cons b items =>
        have hrest := ih (List.cons_ne_nil b items) hitems (Nat.le_of_succ_le_succ hleft)
        have htext : [','].intercalate ((a :: b :: items).map write) ++ close :: rest =
            write a ++ ',' :: ([','].intercalate ((b :: items).map write) ++ close :: rest) := by
          simp [List.intercalate_cons_cons]
        rw [htext, sequence_comma ha hcomma, hrest]
        rfl

end sequence

theorem membersText_eq_cons {ms : List (String × String)} (hne : ms ≠ []) :
    ∃ cs, membersText ms = '"' :: cs := by
  obtain ⟨m, ms, rfl⟩ := List.exists_cons_of_ne_nil hne
  cases ms with
  | nil => simp [membersText, memberText, quote_toList m.1]
  | cons m' ms => simp [membersText, memberText, quote_toList m.1, List.intercalate_cons_cons]

theorem enclosed_membersText {ms : List (String × String)} (hne : ms ≠ []) (left : Nat) :
    enclosed '\x7d' (member? (value (left + 1))) (membersText ms) =
      some (ms.map (Prod.map id .string), []) := by
  have hread : ∀ m ∈ ms, ∀ rest,
      member? (value (left + 1)) (memberText m ++ rest) = some (m.map id .string, rest) := by
    intro m _
    exact member?_memberText fun rest => value_quote m.2 rest left
  have hlength : ms.length ≤ (membersText ms).length := by
    have hcommas := Text.length_le_intercalate ',' (ms.map memberText)
    rwa [List.length_map, ← List.length_singleton (a := '\x7d'), ← List.length_append] at hcommas
  obtain ⟨cs, hcs⟩ := membersText_eq_cons hne
  have hopen : (skip (membersText ms)).head? ≠ some '\x7d' := by
    rw [hcs]
    change some '"' ≠ _
    decide
  rw [enclosed, if_neg hopen]
  exact sequence_intercalate (fun _ => rfl) (by decide) hne hread [] hlength

theorem value_objectText {ms : List (String × String)} (hne : ms ≠ []) (left : Nat) :
    value (left + 2) (objectText ms) = some (.object (ms.map (Prod.map id .string)), []) := by
  change (enclosed _ _ (membersText ms)).map _ = _
  rw [enclosed_membersText hne]
  rfl

/-- An object written from texts is read as those texts. -/
theorem decode_objectText {ms : List (String × String)} (hne : ms ≠ []) :
    decode (objectText ms) = some (.object (ms.map (Prod.map id .string))) := by
  obtain ⟨cs, hcs⟩ := membersText_eq_cons hne
  have hlength : (objectText ms).length = cs.length + 2 := by
    rw [objectText, hcs]
    rfl
  rw [decode, hlength, value_objectText hne]
  rfl

example : decode "[1, -2.5e+3, \x7b \"a\" : [null] \x7d , \"\\/\\ud83d\\ude00\"]\t".toList =
    some (.array [.number "1", .number "-2.5e+3", .object [("a", .array [.null])],
      .string "/😀"]) := rfl

theorem quote_printable (s : String) : ∀ c ∈ (Text.quote s).toList, 0x20 ≤ c.toNat := by
  intro c hc
  simp only [quote_toList, List.mem_cons, List.mem_append, List.mem_flatMap, List.not_mem_nil,
    or_false] at hc
  rcases hc with rfl | ⟨d, -, hc⟩ | rfl
  · decide
  · exact Text.escape_printable d c hc
  · decide

theorem memberText_printable (m : String × String) : ∀ c ∈ memberText m, 0x20 ≤ c.toNat := by
  refine List.forall_mem_append.mpr ⟨quote_printable m.1, List.forall_mem_cons.mpr ⟨?_, ?_⟩⟩
  · decide
  · exact quote_printable m.2

theorem objectText_printable (ms : List (String × String)) :
    ∀ c ∈ objectText ms, 0x20 ≤ c.toNat := by
  have hmembers : ∀ part ∈ ms.map memberText, ∀ c ∈ part, 0x20 ≤ c.toNat :=
    List.forall_mem_map.mpr fun m _ => memberText_printable m
  refine List.forall_mem_cons.mpr ⟨by decide, List.forall_mem_append.mpr ⟨?_, ?_⟩⟩
  · exact Text.forall_mem_intercalate (by decide) hmembers
  · exact List.forall_mem_singleton.mpr (by decide)

end Json

end CronCalendar
