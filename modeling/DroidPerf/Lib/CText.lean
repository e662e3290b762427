import DroidPerf.Lib.Tokens
import Mathlib.Data.List.Induction
import Mathlib.Tactic.Linarith

/-!
# C text

Functions of the C library on text: `strtok_r`, which takes a string apart at delimiters, and
`strtol` in base 16.

A string is the characters before its NUL. `strtok_r` writes a NUL over the delimiter behind
the token, so a call has three results: the token, the string as it is from now on, and what
the next call goes on with. The lemmas say what a call does to a text that begins with
delimiters, a word and then a delimiter (`strtok_word`), and with these a line of fields is
walked through field by field.

`strtol` saturates at the bounds of a `long`. A number of hexadecimal digits that is within
them is read as its value (`HexNumber.strtol_eq`).
-/

namespace CText

/-! ### `strtok_r`

A token is a maximal run of characters that are no delimiters. -/

/-- What a call of `strtok_r` gives and leaves behind. -/
structure Cut where
  /-- The token; none where the call returns `NULL`. -/
  token : Option (List Char)
  /-- The string itself, which ends behind the token from now on. -/
  str : List Char
  /-- What the next call goes on with. -/
  save : List Char
  deriving DecidableEq, Repr

/-- `strtok_r`. -/
def strtok (delim s : List Char) : Cut :=
  let gap := s.takeWhile fun c => c ∈ delim
  let start := s.dropWhile fun c => c ∈ delim
  if start = [] then ⟨none, s, []⟩
  else
    let token := start.takeWhile fun c => c ∉ delim
    ⟨some token, gap ++ token, (start.dropWhile fun c => c ∉ delim).drop 1⟩

/-- A run of characters that are no delimiters. -/
structure Word (delim word : List Char) : Prop where
  nonempty : word ≠ []
  clean : ∀ c ∈ word, c ∉ delim

instance (delim word : List Char) : Decidable (Word delim word) :=
  decidable_of_iff (word ≠ [] ∧ (word.all fun c => decide (c ∉ delim)) = true) <| by
    rw [List.all_eq_true]
    simp only [decide_eq_true_eq]
    exact ⟨fun h => ⟨h.1, h.2⟩, fun h => ⟨h.nonempty, h.clean⟩⟩

variable {delim gap word rest : List Char}

/-- Only delimiters are left. -/
theorem strtok_gap (hgap : ∀ c ∈ gap, c ∈ delim) : strtok delim gap = ⟨none, gap, []⟩ := by
  have hdrop : gap.dropWhile (fun c => c ∈ delim) = [] := by
    rw [List.dropWhile_eq_nil_iff]
    simpa using hgap
  rw [strtok, hdrop]
  exact if_pos rfl

/-- Delimiters, a word, and then a delimiter or the end. -/
theorem strtok_word (hgap : ∀ c ∈ gap, c ∈ delim) (hword : Word delim word)
    (hrest : ∀ c ∈ rest.head?, c ∈ delim) :
    strtok delim (gap ++ (word ++ rest)) = ⟨some word, gap ++ word, rest.drop 1⟩ := by
  have hskip : ∀ c ∈ gap, decide (c ∈ delim) = true := by simpa using hgap
  have hkeep : ∀ c ∈ word, decide (c ∉ delim) = true := by simpa using hword.clean
  have hfirst : (word ++ rest).takeWhile (fun c => c ∈ delim) = [] ∧
      (word ++ rest).dropWhile (fun c => c ∈ delim) = word ++ rest := by
    obtain ⟨c, t, rfl⟩ := List.exists_cons_of_ne_nil hword.nonempty
    have hc : ¬ decide (c ∈ delim) = true := by simpa using hword.clean c List.mem_cons_self
    rw [List.cons_append, List.takeWhile_cons_of_neg (p := fun c => decide (c ∈ delim)) hc,
      List.dropWhile_cons_of_neg (p := fun c => decide (c ∈ delim)) hc]
    exact ⟨rfl, rfl⟩
  have hstop : rest.takeWhile (fun c => c ∉ delim) = [] ∧
      rest.dropWhile (fun c => c ∉ delim) = rest := by
    cases rest with
    | nil => exact ⟨rfl, rfl⟩
    | cons d rest =>
        have hd : ¬ decide (d ∉ delim) = true := by simpa using hrest d rfl
        rw [List.takeWhile_cons_of_neg (p := fun c => decide (c ∉ delim)) hd,
          List.dropWhile_cons_of_neg (p := fun c => decide (c ∉ delim)) hd]
        exact ⟨rfl, rfl⟩
  have hne : word ++ rest ≠ [] := List.append_ne_nil_of_left_ne_nil hword.nonempty rest
  rw [strtok, List.takeWhile_append_of_pos hskip, List.dropWhile_append_of_pos hskip,
    hfirst.1, hfirst.2, List.takeWhile_append_of_pos hkeep, List.dropWhile_append_of_pos hkeep,
    hstop.1, hstop.2, List.append_nil, List.append_nil]
  exact if_neg hne

/-- A word at the start, with a delimiter behind it. -/
theorem strtok_field {d : Char} (hword : Word delim word) (hd : d ∈ delim) :
    strtok delim (word ++ d :: rest) = ⟨some word, word, rest⟩ :=
  strtok_word (List.forall_mem_nil _) hword (by simpa using hd)

/-- The last word of a string, after which nothing is left. -/
theorem strtok_end (hgap : ∀ c ∈ gap, c ∈ delim) (hword : Word delim word) :
    strtok delim (gap ++ word) = ⟨some word, gap ++ word, []⟩ := by
  have hend : strtok delim (gap ++ (word ++ [])) = ⟨some word, gap ++ word, [].drop 1⟩ :=
    strtok_word hgap hword (by simp)
  rwa [List.append_nil] at hend

/-- The string that a call leaves has no second token. -/
theorem strtok_str {s : List Char} (h : (strtok delim s).token = some word) :
    (strtok delim (strtok delim s).str).save = [] := by
  rcases Tokens.exists_token (fun c => decide (c ∈ delim)) s with hgap |
    ⟨gap, token, rest, rfl, hgap, hne, htoken, hrest⟩
  · rw [strtok_gap (by simpa using hgap)] at h
    cases h
  · have hgap : ∀ c ∈ gap, c ∈ delim := by simpa using hgap
    have hword : Word delim token := ⟨hne, by simpa using htoken⟩
    rw [strtok_word hgap hword (by simpa using hrest)]
    rw [strtok_end hgap hword]

/-! ### `strtol`

White space and a sign are skipped, and digits are read as far as there are any; without digits
the number is zero. -/

/-- The value of a hexadecimal digit. -/
def hexDigit (c : Char) : Option Nat :=
  if c.isDigit then some (c.toNat - '0'.toNat)
  else if 'a' ≤ c ∧ c ≤ 'f' then some (c.toNat - 'a'.toNat + 10)
  else if 'A' ≤ c ∧ c ≤ 'F' then some (c.toNat - 'A'.toNat + 10)
  else none

/-- The number that hexadecimal digits stand for. -/
def hexValue (digits : List Char) : Nat :=
  digits.foldl (fun n c => 16 * n + (hexDigit c).getD 0) 0

/-- The white space of C. -/
def isSpace (c : Char) : Bool := c = ' ' ∨ ('\t' ≤ c ∧ c ≤ '\r')

/-- The digits in front, behind `0x` if that is there. -/
def hexPrefix (s : List Char) : List Char :=
  let digits := match s with
    | '0' :: 'x' :: rest => rest
    | '0' :: 'X' :: rest => rest
    | s => s
  digits.takeWhile fun c => (hexDigit c).isSome

/-- `strtol` in base 16, with a `long` of 64 bits. -/
def strtol (s : List Char) : Int :=
  match s.dropWhile isSpace with
  | '-' :: s => max (-(hexValue (hexPrefix s) : Int)) (-2 ^ 63)
  | '+' :: s => min (hexValue (hexPrefix s) : Int) (2 ^ 63 - 1)
  | s => min (hexValue (hexPrefix s) : Int) (2 ^ 63 - 1)

/-- Hexadecimal digits, at least one. -/
structure HexNumber (digits : List Char) : Prop where
  nonempty : digits ≠ []
  hex : ∀ c ∈ digits, (hexDigit c).isSome = true

instance (digits : List Char) : Decidable (HexNumber digits) :=
  decidable_of_iff (digits ≠ [] ∧ (digits.all fun c => (hexDigit c).isSome) = true) <| by
    rw [List.all_eq_true]
    exact ⟨fun h => ⟨h.1, h.2⟩, fun h => ⟨h.nonempty, h.hex⟩⟩

/-- A digit is below the base. -/
theorem hexDigit_lt {c : Char} {d : Nat} (h : hexDigit c = some d) : d < 16 := by
  unfold hexDigit at h
  split_ifs at h with hdigit hlower hupper
  · simp only [Char.isDigit, Bool.and_eq_true, decide_eq_true_eq] at hdigit
    have hle : c.toNat ≤ 57 := hdigit.2
    have hval : c.toNat - 48 = d := Option.some.inj h
    omega
  · have hle : c.toNat ≤ 102 := hlower.2
    have hval : c.toNat - 97 + 10 = d := Option.some.inj h
    omega
  · have hle : c.toNat ≤ 70 := hupper.2
    have hval : c.toNat - 65 + 10 = d := Option.some.inj h
    omega

/-- The value of some digits is below the power of their number, so sixteen digits are needed
to exceed 64 bits. -/
theorem hexValue_lt (digits : List Char) : hexValue digits < 16 ^ digits.length := by
  induction digits using List.reverseRecOn with
  | nil => exact Nat.one_pos
  | append_singleton digits c ih =>
      have hvalue : hexValue (digits ++ [c]) = 16 * hexValue digits + (hexDigit c).getD 0 := by
        simp [hexValue, List.foldl_append]
      have hdigit : (hexDigit c).getD 0 < 16 := by
        cases hc : hexDigit c with
        | none => decide
        | some d => exact hexDigit_lt hc
      rw [hvalue, List.length_append, List.length_singleton, pow_succ]
      omega

theorem HexNumber.append {digits digits' : List Char} (h : HexNumber digits)
    (h' : ∀ c ∈ digits', (hexDigit c).isSome = true) : HexNumber (digits ++ digits') :=
  ⟨List.append_ne_nil_of_left_ne_nil h.nonempty _, List.forall_mem_append.mpr ⟨h.hex, h'⟩⟩

theorem isSome_hexDigit_of_isDigit {c : Char} (h : c.isDigit = true) :
    (hexDigit c).isSome = true := by
  rw [hexDigit, if_pos h]
  rfl

variable {digits : List Char}

theorem HexNumber.notMem (h : HexNumber digits) {c : Char} (hc : hexDigit c = none) :
    c ∉ digits := by
  intro hmem
  have hsome := h.hex c hmem
  rw [hc] at hsome
  cases hsome

/-- Digits without `0x` in front are read to their end. -/
theorem HexNumber.hexPrefix_eq (h : HexNumber digits) : hexPrefix digits = digits := by
  unfold hexPrefix
  split
  · exact absurd (by simp) (h.notMem (c := 'x') rfl)
  · exact absurd (by simp) (h.notMem (c := 'X') rfl)
  · exact List.takeWhile_eq_self_iff.mpr h.hex

/-- No digit is skipped as white space. -/
theorem isSpace_of_hexDigit {c : Char} (h : (hexDigit c).isSome = true) : isSpace c = false := by
  have hlow : 48 ≤ c.toNat := by
    unfold hexDigit at h
    split_ifs at h with hdigit hlower hupper
    · simp only [Char.isDigit, Bool.and_eq_true, decide_eq_true_eq] at hdigit
      exact hdigit.1
    · have hle : 97 ≤ c.toNat := hlower.1
      omega
    · have hle : 65 ≤ c.toNat := hupper.1
      omega
    · cases h
  simp only [isSpace, decide_eq_false_iff_not, not_or, not_and]
  refine ⟨?_, fun _ hle => ?_⟩
  · rintro rfl
    exact absurd hlow (by decide)
  · have hle : c.toNat ≤ 13 := hle
    omega

theorem isSpace_of_isDigit {c : Char} (h : c.isDigit = true) : isSpace c = false :=
  isSpace_of_hexDigit (by simp [hexDigit, h])

/-- No white space is skipped in front of decimal digits. -/
theorem dropWhile_isSpace_digits {s : List Char} (hs : ∀ c ∈ s, c.isDigit = true) :
    s.dropWhile isSpace = s := by
  rw [List.dropWhile_eq_self_iff]
  intro hlen
  simpa using isSpace_of_isDigit (hs _ (List.getElem_mem hlen))

/-- A number that a `long` holds is read as itself. -/
theorem HexNumber.strtol_eq (h : HexNumber digits) (hlt : hexValue digits < 2 ^ 63) :
    strtol digits = hexValue digits := by
  obtain ⟨c, rest, hdigits⟩ := List.exists_cons_of_ne_nil h.nonempty
  have hc : (hexDigit c).isSome = true := h.hex c (hdigits ▸ List.mem_cons_self)
  have hdrop : digits.dropWhile isSpace = digits := by
    rw [hdigits, List.dropWhile_cons_of_neg (by simp [isSpace_of_hexDigit hc])]
  unfold strtol
  rw [hdrop]
  split
  · exact absurd (by simp) (h.notMem (c := '-') rfl)
  · exact absurd (by simp) (h.notMem (c := '+') rfl)
  · rw [h.hexPrefix_eq]
    omega

end CText
