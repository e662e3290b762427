import Mathlib.Data.List.Basic
import Mathlib.Data.List.DropRight
import Mathlib.Tactic.IntervalCases
import Mathlib.Tactic.Linarith

/-!
# Text

Text is a list of characters: its length in modified UTF-8, integers printed in decimal and
read back, and text taken apart at separators and line ends.

Reading follows the string functions of Python: white space is what `str.isspace` accepts, and
the digits of a number are the ASCII ones.

The lemmas come in pairs, one for each direction of a round trip. A number that was printed is
read as itself (`readInt_decimal`), and what is read as a number has only the characters of one
(`notMem_of_readInt`). Text that was put together from pieces without the separator is split
into these pieces (`split_append`, `lines_append`), and no piece holds a separator
(`notMem_of_mem_splitOn`).

The last section is about numbers that are written one after another with a zero between them.
Such a text can be cut at every zero that stands before another digit (`zeroCuts`), and
`append_zero_cases` compares two cuts of one text.
-/

namespace Text

/-- The bytes of a character in the modified UTF-8 of a Java virtual machine. It differs
from UTF-8 in the character U+0000, which takes two bytes so that no byte is zero, and
beyond U+FFFF, where the two surrogates take three bytes each. -/
def charSize (c : Char) : Nat :=
  if c = '\x00' then 2 else if 0x10000 ≤ c.toNat then 6 else c.utf8Size

/-- No character takes no bytes. -/
theorem charSize_pos (c : Char) : 0 < charSize c := by
  unfold charSize
  split
  · exact Nat.succ_pos 1
  · split
    · exact Nat.succ_pos 5
    · exact c.utf8Size_pos

/-- The length in bytes, which is what `strlen` and `vsnprintf` count. -/
def byteSize : List Char → Nat
  | [] => 0
  | c :: s => charSize c + byteSize s

@[simp] theorem byteSize_nil : byteSize [] = 0 := rfl

@[simp] theorem byteSize_cons (c : Char) (s : List Char) :
    byteSize (c :: s) = charSize c + byteSize s := rfl

@[simp] theorem byteSize_append (s t : List Char) :
    byteSize (s ++ t) = byteSize s + byteSize t := by
  induction s with
  | nil => simp
  | cons c s ih =>
      rw [List.cons_append, byteSize_cons, byteSize_cons, ih]
      omega

/-- An integer in decimal. -/
def decimal : Int → List Char
  | .ofNat n => Nat.toDigits 10 n
  | .negSucc n => '-' :: Nat.toDigits 10 (n + 1)

/-- Text of digits and signs. Printed numbers are of this kind, and what is known of their
characters (that none is a separator, that each takes one byte) is known of all such text. -/
def Numeric (s : List Char) : Prop := ∀ c ∈ s, c = '-' ∨ c.isDigit = true

instance (s : List Char) : Decidable (Numeric s) :=
  decidable_of_iff (s.all fun c => c = '-' ∨ c.isDigit = true) (by simp [Numeric])

/-- The digits of a number are numeric. -/
theorem numeric_toDigits (n : Nat) : Numeric (Nat.toDigits 10 n) :=
  fun _ h => .inr (Nat.isDigit_of_mem_toDigits (by decide) (by decide) h)

/-- A sign or a digit can stand in front of a number. -/
theorem Numeric.cons {s : List Char} {c : Char} (hc : c = '-' ∨ c.isDigit = true)
    (h : Numeric s) : Numeric (c :: s) :=
  List.forall_mem_cons.mpr ⟨hc, h⟩

/-- Two numeric texts make one. -/
theorem Numeric.append {s t : List Char} (hs : Numeric s) (ht : Numeric t) : Numeric (s ++ t) :=
  List.forall_mem_append.mpr ⟨hs, ht⟩

/-- A printed number is numeric. -/
theorem numeric_decimal (i : Int) : Numeric (decimal i) := by
  cases i with
  | ofNat n => exact numeric_toDigits n
  | negSucc n => exact (numeric_toDigits (n + 1)).cons (.inl rfl)

/-- A character that is neither a sign nor a digit is in no number. -/
theorem Numeric.notMem {s : List Char} {c : Char} (h : Numeric s) (hsign : c ≠ '-')
    (hdigit : c.isDigit = false) : c ∉ s := by
  intro hmem
  rcases h c hmem with rfl | hc
  · exact hsign rfl
  · rw [hdigit] at hc
    cases hc

/-- A digit takes one byte. -/
theorem charSize_of_isDigit {c : Char} (h : c.isDigit = true) : charSize c = 1 := by
  simp only [Char.isDigit, Bool.and_eq_true, decide_eq_true_eq] at h
  have hle : c.toNat ≤ 57 := UInt32.le_iff_toNat_le.mp h.2
  have hzero : c ≠ '\x00' := by
    rintro rfl
    exact absurd h.1 (by decide)
  rw [charSize, if_neg hzero, if_neg (by omega)]
  exact if_pos (UInt32.le_trans h.2 (by decide))

/-- Numbers take a byte for each character. -/
theorem Numeric.byteSize_eq {s : List Char} (h : Numeric s) : byteSize s = s.length := by
  induction s with
  | nil => rfl
  | cons c s ih =>
      obtain ⟨hc, hs⟩ := List.forall_mem_cons.mp h
      have hsize : charSize c = 1 := by
        rcases hc with rfl | hc
        · rfl
        · exact charSize_of_isDigit hc
      rw [byteSize_cons, hsize, ih hs, List.length_cons]
      omega

/-- A number of `k` digits takes at most `k + 1` bytes. -/
theorem byteSize_decimal_le {i : Int} {k : Nat} (hk : 0 < k) (hi : i.natAbs < 10 ^ k) :
    byteSize (decimal i) ≤ k + 1 := by
  rw [(numeric_decimal i).byteSize_eq]
  cases i with
  | ofNat n =>
      have hlen := (Nat.length_toDigits_le_iff (by decide) hk).mpr hi
      exact Nat.le_succ_of_le hlen
  | negSucc n =>
      have hlen := (Nat.length_toDigits_le_iff (n := n + 1) (by decide) hk).mpr hi
      exact Nat.succ_le_succ hlen

/-- The part after the last occurrence of a character: `s[s.rfind(c)+1:]`. -/
def afterLast (c : Char) (s : List Char) : List Char :=
  (s.reverse.takeWhile fun d => d ≠ c).reverse

/-- What follows the last separator is what was put there. -/
theorem afterLast_append {c : Char} {s t : List Char} (ht : c ∉ t) :
    afterLast c (s ++ c :: t) = t := by
  unfold afterLast
  rw [List.reverse_append, List.reverse_cons, List.append_assoc, List.takeWhile_append_of_pos]
  · simp
  · intro d hd
    have hd : d ∈ t := List.mem_reverse.mp hd
    simpa using fun hdc : d = c => ht (hdc ▸ hd)

/-- Without a separator it is the whole text, as `rfind` is `-1` then. -/
theorem afterLast_of_notMem {c : Char} {t : List Char} (ht : c ∉ t) : afterLast c t = t := by
  have hall : ∀ d ∈ t.reverse, decide (d ≠ c) = true := by
    intro d hd
    have hd : d ∈ t := List.mem_reverse.mp hd
    simpa using fun hdc : d = c => ht (hdc ▸ hd)
  unfold afterLast
  rw [← List.append_nil t.reverse, List.takeWhile_append_of_pos hall]
  simp

/-! ### Integers read back

`int()` takes white space off both ends, reads a sign and then digits. What was printed by
`decimal` comes back, and so printing is injective. -/

/-- White space: what `str.isspace` accepts. -/
def isWhitespace (c : Char) : Bool :=
  c = ' ' ∨ ('\t' ≤ c ∧ c ≤ '\r') ∨ ('\x1c' ≤ c ∧ c ≤ '\x1f') ∨
    (0x2000 ≤ c.toNat ∧ c.toNat ≤ 0x200A) ∨
    c.toNat ∈ [0x85, 0xA0, 0x1680, 0x2028, 0x2029, 0x202F, 0x205F, 0x3000]

/-- `s.rstrip()`. -/
def rstrip (s : List Char) : List Char := s.rdropWhile isWhitespace

/-- `s.strip()`. -/
def strip (s : List Char) : List Char := rstrip (s.dropWhile isWhitespace)

/-- Digits, which may be grouped by underscores. -/
def readNat (s : List Char) : Option Nat :=
  let groups := s.splitOn '_'
  if groups.all fun group => group ≠ [] ∧ group.all Char.isDigit then
    some (Nat.ofDigitChars 10 groups.flatten 0)
  else none

/-- `int(s)`; `none` is an exception. -/
def readInt (s : List Char) : Option Int :=
  match strip s with
  | '-' :: digits => (readNat digits).map fun n : Nat => -(n : Int)
  | '+' :: digits => (readNat digits).map Int.ofNat
  | digits => (readNat digits).map Int.ofNat

/-- White space behind a text without any is taken off. -/
theorem strip_append {s t : List Char} (hs : ∀ c ∈ s, isWhitespace c = false) (hne : s ≠ [])
    (ht : t.all isWhitespace = true) : strip (s ++ t) = s := by
  unfold strip rstrip
  obtain ⟨c, s, rfl⟩ := List.exists_cons_of_ne_nil hne
  rw [List.cons_append, List.dropWhile_cons_of_neg (by simp [hs c List.mem_cons_self])]
  unfold List.rdropWhile
  rw [← List.cons_append, List.reverse_append,
    List.dropWhile_append_of_pos fun d hd => List.all_eq_true.mp ht d (List.mem_reverse.mp hd)]
  rw [List.dropWhile_eq_self_iff.mpr, List.reverse_reverse]
  intro hlen
  simpa using hs _ (List.mem_reverse.mp (List.getElem_mem hlen))

/-- Printed digits are one group. -/
theorem readNat_toDigits (n : Nat) : readNat (Nat.toDigits 10 n) = some n := by
  have hsplit : (Nat.toDigits 10 n).splitOn '_' = [Nat.toDigits 10 n] :=
    List.splitOn_eq_singleton Nat.underscore_not_in_toDigits
  have hdigits : ∀ c ∈ Nat.toDigits 10 n, c.isDigit = true :=
    fun c => Nat.isDigit_of_mem_toDigits (by decide) (by decide)
  unfold readNat
  rw [hsplit]
  simpa [Nat.ofDigitChars_ten_toDigits] using hdigits

/-- A digit is no white space. -/
theorem isWhitespace_of_isDigit {c : Char} (h : c.isDigit = true) : isWhitespace c = false := by
  simp only [Char.isDigit, Bool.and_eq_true, decide_eq_true_eq] at h
  have hlow : 48 ≤ c.toNat := h.1
  have hhigh : c.toNat ≤ 57 := h.2
  simp only [isWhitespace, decide_eq_false_iff_not, not_or, not_and, List.mem_cons,
    List.not_mem_nil, not_false_eq_true, and_true]
  refine ⟨?_, fun _ hle => ?_, fun _ hle => ?_, by omega, by omega⟩
  · intro heq
    subst heq
    exact absurd hlow (by decide)
  · have hle : c.toNat ≤ 13 := hle
    omega
  · have hle : c.toNat ≤ 31 := hle
    omega

/-- A printed number has no white space in it. -/
theorem isWhitespace_of_mem_decimal {i : Int} {c : Char} (h : c ∈ decimal i) :
    isWhitespace c = false := by
  rcases numeric_decimal i c h with rfl | h
  · rfl
  · exact isWhitespace_of_isDigit h

/-- A printed number is not empty. -/
theorem decimal_ne_nil (i : Int) : decimal i ≠ [] := by
  cases i with
  | ofNat n => exact Nat.toDigits_ne_nil
  | negSucc n => exact List.cons_ne_nil _ _

/-- **A number is read back as what was printed**, also at the end of a line. -/
theorem readInt_decimal (i : Int) {t : List Char} (ht : t.all isWhitespace = true) :
    readInt (decimal i ++ t) = some i := by
  unfold readInt
  rw [strip_append (fun c => isWhitespace_of_mem_decimal) (decimal_ne_nil i) ht]
  cases i with
  | ofNat n =>
      have hdigit : ∀ c ∈ Nat.toDigits 10 n, c.isDigit = true :=
        fun c => Nat.isDigit_of_mem_toDigits (by decide) (by decide)
      show (match Nat.toDigits 10 n with
        | '-' :: digits => _
        | '+' :: digits => _
        | digits => _) = _
      -- a sign in front would be a digit
      split
      · rename_i digits hsign
        exact absurd (hdigit '-' (hsign ▸ List.mem_cons_self)) (by decide)
      · rename_i digits hsign
        exact absurd (hdigit '+' (hsign ▸ List.mem_cons_self)) (by decide)
      · rw [readNat_toDigits]
        rfl
  | negSucc n =>
      show (readNat (Nat.toDigits 10 (n + 1))).map _ = _
      rw [readNat_toDigits]
      rfl

/-- Different numbers are printed differently. -/
theorem decimal_injective {i j : Int} (h : decimal i = decimal j) : i = j := by
  have hi := readInt_decimal i (t := []) rfl
  rw [h, readInt_decimal j rfl] at hi
  exact (Option.some.inj hi).symm

/-! ### Text taken apart

`split` looks for the separator from left to right and goes on behind it. Here a separator is
some text and then a character that ends it; if neither the pieces nor the front part hold this
character, the separator is found where it was put and nowhere else. -/

/-- The first piece of a text and the others; `skip` characters of a separator are left
to pass over. -/
def splitFrom (sep : List Char) : Nat → List Char → List Char × List (List Char)
  | _, [] => ([], [])
  | skip + 1, _ :: s => splitFrom sep skip s
  | 0, c :: s =>
    if sep <+: c :: s then
      let (piece, pieces) := splitFrom sep (sep.length - 1) s
      ([], piece :: pieces)
    else
      let (piece, pieces) := splitFrom sep 0 s
      (c :: piece, pieces)

/-- `s.split(sep)`. -/
def split (sep s : List Char) : List (List Char) :=
  (splitFrom sep 0 s).1 :: (splitFrom sep 0 s).2

/-- The rest of a separator is passed over. -/
theorem splitFrom_skip (sep u s : List Char) :
    splitFrom sep u.length (u ++ s) = splitFrom sep 0 s := by
  induction u with
  | nil => rfl
  | cons c u ih => exact ih

/-- A separator that ends in a character which is nowhere else cannot start before: it would
put this character into the piece or into the front of the separator. -/
theorem not_separator_isPrefix {init v t : List Char} {z : Char} (hv : z ∉ v) (hinit : z ∉ init)
    (hne : v ≠ []) : ¬ init ++ [z] <+: v ++ (init ++ z :: t) := by
  intro hprefix
  obtain ⟨r, h⟩ := hprefix
  have hlen : init.length < (v ++ init).length := by
    have hpos := List.length_pos_iff.mpr hne
    rw [List.length_append]
    omega
  have hget := congrArg (fun l => l[init.length]?) h
  rw [← List.append_assoc v] at hget
  simp only [List.append_assoc, List.getElem?_append_right (Nat.le_refl _), Nat.sub_self] at hget
  rw [← List.append_assoc v, List.getElem?_append_left hlen] at hget
  have hmem : z ∈ v ++ init := List.mem_of_getElem? hget.symm
  rcases List.mem_append.mp hmem with hmem | hmem
  · exact hv hmem
  · exact hinit hmem

/-- The text before a separator is a piece. -/
theorem split_append {init s : List Char} {z : Char} (hs : z ∉ s) (hinit : z ∉ init)
    (t : List Char) :
    split (init ++ [z]) (s ++ (init ++ z :: t)) = s :: split (init ++ [z]) t := by
  suffices h : splitFrom (init ++ [z]) 0 (s ++ (init ++ z :: t)) =
      (s, split (init ++ [z]) t) by
    unfold split at h ⊢
    rw [h]
  induction s with
  | nil =>
      obtain ⟨c, u, hu⟩ := List.exists_cons_of_ne_nil
        (show init ++ [z] ≠ [] from List.append_ne_nil_of_right_ne_nil _ (List.cons_ne_nil _ _))
      have htext : init ++ z :: t = c :: (u ++ t) := by
        rw [← List.cons_append, ← hu]
        simp
      rw [List.nil_append, htext, hu]
      unfold splitFrom
      rw [if_pos ⟨t, rfl⟩, show (c :: u).length - 1 = u.length from rfl, splitFrom_skip]
      rfl
  | cons c s ih =>
      have hs' : z ∉ s := fun h => hs (List.mem_cons_of_mem _ h)
      have hnot := not_separator_isPrefix (t := t) hs hinit (List.cons_ne_nil _ _)
      rw [List.cons_append] at hnot ⊢
      unfold splitFrom
      rw [if_neg hnot, ih hs']

/-- Text without the last character of the separator is one piece. -/
theorem split_of_notMem {init s : List Char} {z : Char} (hs : z ∉ s) :
    split (init ++ [z]) s = [s] := by
  suffices h : splitFrom (init ++ [z]) 0 s = (s, []) by
    unfold split
    rw [h]
  induction s with
  | nil => rfl
  | cons c s ih =>
      have hnot : ¬ init ++ [z] <+: c :: s := by
        intro h
        exact hs (h.subset (List.mem_append_right _ List.mem_cons_self))
      unfold splitFrom
      rw [if_neg hnot, ih fun h => hs (List.mem_cons_of_mem _ h)]

/-- A piece does not hold what separates the pieces. -/
theorem notMem_of_mem_splitOn {c : Char} {s piece : List Char} (h : piece ∈ s.splitOn c) :
    c ∉ piece := by
  induction s generalizing piece with
  | nil =>
      rw [List.splitOn_nil, List.mem_singleton] at h
      simp [h]
  | cons d s ih =>
      rw [List.splitOn_cons_eq_if_modifyHead] at h
      obtain ⟨first, rest, hsplit⟩ := List.exists_cons_of_ne_nil (List.splitOn_ne_nil c s)
      rw [hsplit] at h ih
      split at h
      · rcases List.mem_cons.mp h with rfl | h
        · exact List.not_mem_nil
        · exact ih h
      · rename_i hne
        rcases List.mem_cons.mp h with rfl | h
        · intro hmem
          rcases List.mem_cons.mp hmem with rfl | hmem
          · exact hne (by simp)
          · exact ih List.mem_cons_self hmem
        · exact ih (List.mem_cons_of_mem _ h)

/-- Pieces that each end in a separator, without the last one. -/
theorem flatMap_append_singleton (c : Char) {pieces : List (List Char)} (hne : pieces ≠ []) :
    pieces.flatMap (fun piece => piece ++ [c]) = [c].intercalate pieces ++ [c] := by
  induction pieces with
  | nil => exact absurd rfl hne
  | cons piece pieces ih =>
      cases pieces with
      | nil => simp
      | cons next rest =>
          rw [List.flatMap_cons, ih (List.cons_ne_nil _ _),
            List.intercalate_cons_of_ne_nil (List.cons_ne_nil _ _)]
          simp

/-- A character of the joined text is the separator or in a piece. -/
theorem mem_intercalate_singleton {c d : Char} {pieces : List (List Char)}
    (h : d ∈ [c].intercalate pieces) : d = c ∨ ∃ piece ∈ pieces, d ∈ piece := by
  have hne : pieces ≠ [] := by
    intro heq
    subst heq
    cases h
  have hmem : d ∈ pieces.flatMap fun piece => piece ++ [c] := by
    rw [flatMap_append_singleton c hne]
    exact List.mem_append_left _ h
  obtain ⟨piece, hpiece, hd⟩ := List.mem_flatMap.mp hmem
  rcases List.mem_append.mp hd with hd | hd
  · exact .inr ⟨piece, hpiece, hd⟩
  · exact .inl (List.mem_singleton.mp hd)

/-- The lines of a text, with their ends. -/
def lines : List Char → List (List Char)
  | [] => []
  | c :: s =>
    if c = '\n' then ['\n'] :: lines s
    else
      match lines s with
      | [] => [[c]]
      | line :: rest => (c :: line) :: rest

/-- A text without a line end, put in front of one, is the first line. -/
theorem lines_append {s t : List Char} (hs : '\n' ∉ s) :
    lines (s ++ '\n' :: t) = (s ++ ['\n']) :: lines t := by
  induction s with
  | nil => rfl
  | cons c s ih =>
      have hc : c ≠ '\n' := fun h => hs (h ▸ List.mem_cons_self)
      have ih := ih fun h => hs (List.mem_cons_of_mem _ h)
      rw [List.cons_append, lines, if_neg hc, ih]
      rfl

/-- The lines of a text, one behind the other, are the text. -/
theorem flatten_lines (s : List Char) : (lines s).flatten = s := by
  fun_induction lines s with
  | case1 => rfl
  | case2 s ih => rw [List.flatten_cons, ih, List.singleton_append]
  | case3 c s hc hlines ih =>
      rw [hlines] at ih
      rw [← ih]
      rfl
  | case4 c s hc line rest hlines ih =>
      rw [hlines] at ih
      rw [← ih]
      rfl

/-- A text with a line end has a first line. -/
theorem exists_lines (s : List Char) : ∃ line rest, lines (s ++ ['\n']) = line :: rest := by
  refine List.exists_cons_of_ne_nil fun hnil => ?_
  have hflat := flatten_lines (s ++ ['\n'])
  rw [hnil] at hflat
  exact absurd hflat.symm (by simp)

/-- A line end ends a line, whatever follows. -/
theorem lines_append_newline (s t : List Char) :
    lines (s ++ '\n' :: t) = lines (s ++ ['\n']) ++ lines t := by
  induction s with
  | nil => rfl
  | cons c s ih =>
      obtain ⟨line, rest, hlines⟩ := exists_lines s
      rw [List.cons_append, List.cons_append, lines, lines, ih, hlines]
      split <;> rfl

/-- If the text ends in a line end, every line does. -/
theorem getLast?_of_mem_lines {s line : List Char} (h : line ∈ lines (s ++ ['\n'])) :
    line.getLast? = some '\n' := by
  induction s generalizing line with
  | nil =>
      rw [List.mem_singleton.mp h]
      rfl
  | cons c s ih =>
      obtain ⟨first, rest, hlines⟩ := exists_lines s
      rw [List.cons_append, lines, hlines] at h
      rw [hlines] at ih
      split at h
      · rcases List.mem_cons.mp h with rfl | h
        · rfl
        · exact ih h
      · rcases List.mem_cons.mp h with rfl | h
        · rw [List.getLast?_cons, ih List.mem_cons_self]
          rfl
        · exact ih (List.mem_cons_of_mem _ h)

/-- Text within one line. -/
def OneLine (s : List Char) : Prop := ∀ c ∈ s, c ≠ '\n' ∧ c ≠ '\r'

instance (s : List Char) : Decidable (OneLine s) :=
  decidable_of_iff (s.all fun c => c ≠ '\n' ∧ c ≠ '\r') (by simp [OneLine])

/-- Two texts without line ends make one. -/
theorem OneLine.append {s t : List Char} (hs : OneLine s) (ht : OneLine t) : OneLine (s ++ t) :=
  List.forall_mem_append.mpr ⟨hs, ht⟩

/-- Another character that is no line end leaves the text on one line. -/
theorem OneLine.cons {s : List Char} {c : Char} (hc : c ≠ '\n' ∧ c ≠ '\r') (hs : OneLine s) :
    OneLine (c :: s) :=
  List.forall_mem_cons.mpr ⟨hc, hs⟩

/-- A number has no line end in it. -/
theorem Numeric.oneLine {s : List Char} (h : Numeric s) : OneLine s := by
  intro c hc
  refine ⟨?_, ?_⟩
  · intro heq
    subst heq
    exact h.notMem (by decide) (by decide) hc
  · intro heq
    subst heq
    exact h.notMem (by decide) (by decide) hc

/-- What reading in text mode makes of the ends of lines: a carriage return, with the line feed
behind it if there is one, becomes a line feed. -/
def universalNewlines : List Char → List Char
  | [] => []
  | '\r' :: '\n' :: s => '\n' :: universalNewlines s
  | '\r' :: s => '\n' :: universalNewlines s
  | c :: s => c :: universalNewlines s

/-- Text without carriage returns is read as it is. -/
theorem universalNewlines_of_notMem {s : List Char} (hs : '\r' ∉ s) :
    universalNewlines s = s := by
  fun_induction universalNewlines s with
  | case1 => rfl
  | case2 s ih => exact absurd List.mem_cons_self hs
  | case3 s _ ih => exact absurd List.mem_cons_self hs
  | case4 c s _ _ ih => rw [ih fun h => hs (List.mem_cons_of_mem _ h)]

/-- A line end stays one, and what follows it is read by itself. -/
theorem universalNewlines_append_newline (s : List Char) :
    ∃ u, ∀ t, universalNewlines (s ++ '\n' :: t) = u ++ '\n' :: universalNewlines t := by
  fun_induction universalNewlines s with
  | case1 => exact ⟨[], fun _ => rfl⟩
  | case2 s ih =>
      obtain ⟨u, hu⟩ := ih
      exact ⟨'\n' :: u, fun t => congrArg _ (hu t)⟩
  | case3 s hs ih =>
      cases s with
      | nil => exact ⟨[], fun _ => rfl⟩
      | cons c s =>
          obtain ⟨u, hu⟩ := ih
          refine ⟨'\n' :: u, fun t => ?_⟩
          rw [List.cons_append, List.cons_append,
            universalNewlines.eq_3 _ fun v h => hs s (by rw [(List.cons.inj h).1])]
          exact congrArg _ (hu t)
  | case4 c s _ hc ih =>
      obtain ⟨u, hu⟩ := ih
      refine ⟨c :: u, fun t => ?_⟩
      rw [List.cons_append, universalNewlines.eq_4 _ _ (fun _ h _ => hc h) hc]
      exact congrArg _ (hu t)

/-- Other characters do not become more. -/
theorem count_universalNewlines_le {c : Char} (hc : c ≠ '\n') (s : List Char) :
    (universalNewlines s).count c ≤ s.count c := by
  fun_induction universalNewlines s with
  | case1 => exact Nat.le_refl _
  | case2 s ih => grind
  | case3 s _ ih => grind
  | case4 d s _ _ ih => grind

/-- The lines of a file opened in text mode. -/
def readLines (s : List Char) : List (List Char) := lines (universalNewlines s)

/-- `strip` takes off nothing but white space. -/
theorem mem_strip {s : List Char} {c : Char} (hc : c ∈ s) (h : isWhitespace c = false) :
    c ∈ strip s := by
  have hdrop : ∀ t : List Char, c ∈ t → c ∈ t.dropWhile isWhitespace := by
    intro t ht
    rw [← List.takeWhile_append_dropWhile (p := isWhitespace) (l := t)] at ht
    refine (List.mem_append.mp ht).resolve_left fun htake => ?_
    rw [List.mem_takeWhile_imp htake] at h
    cases h
  unfold strip rstrip List.rdropWhile
  exact List.mem_reverse.mpr (hdrop _ (List.mem_reverse.mpr (hdrop s hc)))

/-- The digits of a number, and the underscores between them. -/
theorem mem_of_readNat {s : List Char} {n : Nat} (h : readNat s = some n) :
    ∀ c ∈ s, c = '_' ∨ c.isDigit = true := by
  unfold readNat at h
  dsimp only at h
  split at h
  · rename_i hgroups
    intro c hc
    have hs : ['_'].intercalate (s.splitOn '_') = s := List.intercalate_splitOn '_'
    rw [← hs] at hc
    rcases mem_intercalate_singleton hc with hc | ⟨group, hgroup, hc⟩
    · exact .inl hc
    · have hdigits := List.all_eq_true.mp hgroups group hgroup
      simp only [decide_eq_true_eq, List.all_eq_true] at hdigits
      exact .inr (hdigits.2 c hc)
  · cases h

/-- The characters that a number can hold: one that is no white space, no digit, no sign and no
underscore is not in a text that `int()` reads. -/
theorem notMem_of_readInt {s : List Char} {i : Int} {c : Char} (h : readInt s = some i)
    (hblank : isWhitespace c = false) (hdigit : c.isDigit = false)
    (hsign : c ≠ '-' ∧ c ≠ '+' ∧ c ≠ '_') : c ∉ s := by
  have hdigits : ∀ {t : List Char} {n : Nat}, readNat t = some n → c ∉ t := by
    intro t n ht hc
    rcases mem_of_readNat ht c hc with heq | hc
    · exact hsign.2.2 heq
    · rw [hdigit] at hc
      cases hc
  intro hc
  have hstrip := mem_strip hc hblank
  unfold readInt at h
  split at h
  · rename_i digits heq
    obtain ⟨n, hn, -⟩ := Option.map_eq_some_iff.mp h
    rw [heq] at hstrip
    exact (List.mem_cons.mp hstrip).elim hsign.1 (hdigits hn)
  · rename_i digits heq
    obtain ⟨n, hn, -⟩ := Option.map_eq_some_iff.mp h
    rw [heq] at hstrip
    exact (List.mem_cons.mp hstrip).elim hsign.2.1 (hdigits hn)
  · obtain ⟨n, hn, -⟩ := Option.map_eq_some_iff.mp h
    exact hdigits hn hstrip

/-! ### Numbers joined by zeros

A zero between two numbers is a digit like others, so the text may be cut elsewhere. A positive
number starts with a digit other than zero (`Leads`); a cut is a zero with such a number behind
it. -/

/-- Text that starts with a character other than `0`, as a positive number does. -/
def Leads (s : List Char) : Prop := ∃ d t, s = d :: t ∧ d ≠ '0'

/-- The two sides of every `0` that stands before another character than `0`. A text has
finitely many cuts, so a condition on all of them can be evaluated. -/
def zeroCuts : List Char → List (List Char × List Char)
  | c :: d :: s =>
    let later := (zeroCuts (d :: s)).map fun cut => (c :: cut.1, cut.2)
    if c = '0' ∧ d ≠ '0' then ([], d :: s) :: later else later
  | _ => []

/-- The cuts are exactly the ways to write the text with such a zero in it. -/
theorem mem_zeroCuts {s u v : List Char} :
    (u, v) ∈ zeroCuts s ↔ s = u ++ '0' :: v ∧ Leads v := by
  induction s generalizing u with
  | nil => simp [zeroCuts]
  | cons c s ih =>
      cases s with
      | nil =>
          -- a single character has nothing behind it that a number could start with
          refine ⟨nofun, fun h => ?_⟩
          obtain ⟨hs, d, t, rfl, -⟩ := h
          have hlength := congrArg List.length hs
          simp only [List.length_append, List.length_cons, List.length_nil] at hlength
          omega
      | cons d s =>
          -- a cut further behind is one of the rest
          have hlater : (u, v) ∈ (zeroCuts (d :: s)).map (fun cut => (c :: cut.1, cut.2)) ↔
              ∃ u', u = c :: u' ∧ d :: s = u' ++ '0' :: v ∧ Leads v := by
            rw [List.mem_map]
            constructor
            · intro h
              obtain ⟨⟨u', v'⟩, hcut, heq⟩ := h
              cases heq
              exact ⟨u', rfl, ih.mp hcut⟩
            · intro h
              obtain ⟨u', rfl, hcut⟩ := h
              exact ⟨(u', v), ih.mpr hcut, rfl⟩
          -- the first character is cut at if it is the zero
          have hfirst : (u, v) = ([], d :: s) ∧ c = '0' ∧ d ≠ '0' ↔
              u = [] ∧ c :: d :: s = u ++ '0' :: v ∧ Leads v := by
            constructor
            · intro h
              obtain ⟨heq, rfl, hd⟩ := h
              cases heq
              exact ⟨rfl, rfl, d, s, rfl, hd⟩
            · intro h
              obtain ⟨rfl, heq, d', t, rfl, hd⟩ := h
              cases heq
              exact ⟨rfl, rfl, hd⟩
          have hcases : (u, v) ∈ zeroCuts (c :: d :: s) ↔
              ((u, v) = ([], d :: s) ∧ c = '0' ∧ d ≠ '0') ∨
                (u, v) ∈ (zeroCuts (d :: s)).map fun cut => (c :: cut.1, cut.2) := by
            rw [zeroCuts]
            by_cases hzero : c = '0' ∧ d ≠ '0'
            · rw [if_pos hzero, List.mem_cons, and_iff_left hzero]
            · rw [if_neg hzero, or_iff_right fun h => hzero h.2]
          rw [hcases, hfirst, hlater]
          cases u with
          | nil => simp
          | cons c' u =>
              simp only [reduceCtorEq, false_and, false_or, List.cons.injEq, List.cons_append]
              constructor
              · intro h
                obtain ⟨u', ⟨rfl, rfl⟩, hcut, hv⟩ := h
                exact ⟨⟨rfl, hcut⟩, hv⟩
              · intro h
                obtain ⟨⟨rfl, hcut⟩, hv⟩ := h
                exact ⟨u, ⟨rfl, rfl⟩, hcut, hv⟩

/-- What is in front of an inner zero starts as the whole text does. -/
theorem Leads.of_append {u v : List Char} (h : Leads (u ++ '0' :: v)) : Leads u := by
  obtain ⟨d, t, heq, hd⟩ := h
  cases u with
  | nil => exact absurd (List.cons.inj heq).1.symm hd
  | cons c u => exact ⟨c, u, rfl, (List.cons.inj heq).1 ▸ hd⟩

/-- Where a text is cut at a `0` before a number, another cut is at a `0` inside of one of
the two parts. -/
theorem append_zero_cases {x y x' y' : List Char} (h : x ++ '0' :: y = x' ++ '0' :: y') :
    (x = x' ∧ y = y') ∨ (∃ v, x' = x ++ '0' :: v ∧ y = v ++ '0' :: y') ∨
      ∃ v, x = x' ++ '0' :: v ∧ y' = v ++ '0' :: y := by
  rcases List.append_eq_append_iff.mp h with ⟨u, hx, hy⟩ | ⟨u, hx, hy⟩
  · cases u with
    | nil => exact .inl ⟨by simpa using hx.symm, (List.cons.inj hy).2⟩
    | cons c v =>
        obtain ⟨rfl, htail⟩ := List.cons.inj hy
        exact .inr (.inl ⟨v, hx, htail⟩)
  · cases u with
    | nil => exact .inl ⟨by simpa using hx, (List.cons.inj hy).2.symm⟩
    | cons c v =>
        obtain ⟨rfl, htail⟩ := List.cons.inj hy
        exact .inr (.inr ⟨v, hx, htail⟩)

/-- A digit is the character of its value. -/
theorem digitChar_toNat {c : Char} (h : c.isDigit = true) :
    c.toNat - '0'.toNat < 10 ∧ (c.toNat - '0'.toNat).digitChar = c := by
  have hrange : 48 ≤ c.toNat ∧ c.toNat ≤ 57 := by
    simp only [Char.isDigit, Bool.and_eq_true, decide_eq_true_eq] at h
    exact h
  have hchar : Char.ofNat c.toNat = c := Char.ofNat_toNat c
  generalize c.toNat = n at hrange hchar ⊢
  subst hchar
  obtain ⟨hlow, hhigh⟩ := hrange
  interval_cases n <;> decide

/-- Positive numbers are printed without a zero in front. -/
theorem leads_toDigits {n : Nat} (h : 0 < n) : Leads (Nat.toDigits 10 n) := by
  induction n using Nat.strongRecOn with
  | ind n ih =>
      rw [Nat.toDigits_eq_if (by decide)]
      split
      · rename_i hlt
        refine ⟨_, _, rfl, ?_⟩
        interval_cases n <;> decide
      · obtain ⟨d, t, heq, hd⟩ := ih (n / 10) (by omega) (by omega)
        exact ⟨d, t ++ [(n % 10).digitChar], by rw [heq, List.cons_append], hd⟩

/-- Digits without a `0` in front are the digits of their number. -/
theorem toDigits_ofDigitChars {s : List Char} (hs : ∀ c ∈ s, c.isDigit = true) (h : Leads s) :
    Nat.toDigits 10 (Nat.ofDigitChars 10 s 0) = s ∧ 0 < Nat.ofDigitChars 10 s 0 := by
  induction s using List.reverseRecOn with
  | nil => exact absurd h (by rintro ⟨d, t, heq, -⟩; cases heq)
  | append_singleton u c ih =>
      obtain ⟨hlt, hc⟩ := digitChar_toNat (hs c (by simp))
      rw [Nat.ofDigitChars_append, Nat.ofDigitChars_cons, Nat.ofDigitChars_nil]
      cases u with
      | nil =>
          obtain ⟨d, t, heq, hd⟩ := h
          obtain ⟨rfl, -⟩ := List.cons.inj heq
          rw [Nat.ofDigitChars_nil, Nat.mul_zero, Nat.zero_add, Nat.toDigits_of_lt_base hlt, hc]
          refine ⟨rfl, Nat.pos_of_ne_zero fun hzero => hd ?_⟩
          rw [← hc, hzero]
          rfl
      | cons d u =>
          have hlead : Leads (d :: u) := by
            obtain ⟨d', t, heq, hd⟩ := h
            exact ⟨d, u, rfl, (List.cons.inj heq).1 ▸ hd⟩
          obtain ⟨hdigits, hpos⟩ := ih (fun c hc => hs c (List.mem_append_left _ hc)) hlead
          rw [← Nat.toDigits_append_toDigits (by decide) hpos hlt, hdigits,
            Nat.toDigits_of_lt_base hlt, hc]
          exact ⟨rfl, by omega⟩

/-- The number that joined digits stand for. -/
theorem ofDigitChars_append_zero (s t : List Char) :
    Nat.ofDigitChars 10 (s ++ t) 0 =
      10 ^ t.length * Nat.ofDigitChars 10 s 0 + Nat.ofDigitChars 10 t 0 := by
  rw [Nat.ofDigitChars_append]
  exact Nat.ofDigitChars_eq_ofDigitChars_zero

/-- The digits of a positive number, as `decimal` prints it. -/
structure Numeral (s : List Char) : Prop where
  digits : ∀ c ∈ s, c.isDigit = true
  leads : Leads s

/-- The number that digits stand for. -/
def numberOf (s : List Char) : Nat := Nat.ofDigitChars 10 s 0

namespace Numeral

variable {s t u v : List Char}

/-- Both sides of a cut are numerals. -/
theorem of_zeroCuts (h : Numeral s) (hcut : (u, v) ∈ zeroCuts s) : Numeral u ∧ Numeral v := by
  obtain ⟨rfl, hv⟩ := mem_zeroCuts.mp hcut
  have hdigits := h.digits
  rw [List.forall_mem_append, List.forall_mem_cons] at hdigits
  exact ⟨⟨hdigits.1, h.leads.of_append⟩, hdigits.2.2, hv⟩

/-- Two numerals joined by a zero are a numeral. -/
theorem append_zero (hs : Numeral s) (ht : Numeral t) : Numeral (s ++ '0' :: t) := by
  refine ⟨?_, ?_⟩
  · rw [List.forall_mem_append, List.forall_mem_cons]
    exact ⟨hs.digits, by decide, ht.digits⟩
  · obtain ⟨d, r, hd, hne⟩ := hs.leads
    exact ⟨d, r ++ '0' :: t, by rw [hd, List.cons_append], hne⟩

end Numeral

/-- The value of two numbers joined by a zero, from which both bounds below follow. -/
theorem numberOf_append_zero (s t : List Char) :
    numberOf (s ++ '0' :: t) = 10 ^ (t.length + 1) * numberOf s + numberOf t := by
  have hjoin : s ++ '0' :: t = (s ++ ['0']) ++ t := by simp
  have hzero : Nat.ofDigitChars 10 ['0'] 0 = 0 := rfl
  unfold numberOf
  rw [hjoin, ofDigitChars_append_zero, ofDigitChars_append_zero s, hzero, List.length_singleton,
    Nat.pow_one, Nat.add_zero, ← Nat.mul_assoc, Nat.pow_succ]

/-- The front of two joined numbers is at most the whole. -/
theorem numberOf_le_front (s t : List Char) : numberOf s ≤ numberOf (s ++ '0' :: t) := by
  rw [numberOf_append_zero]
  have hpos : 0 < 10 ^ (t.length + 1) := Nat.pow_pos (by decide)
  exact (Nat.le_mul_of_pos_left _ hpos).trans (Nat.le_add_right _ _)

/-- The back of two joined numbers is at most the whole. -/
theorem numberOf_le_back (s t : List Char) : numberOf t ≤ numberOf (s ++ '0' :: t) := by
  rw [numberOf_append_zero]
  exact Nat.le_add_left _ _

end Text
