import DroidPerf.BlackList
import DroidPerf.Lib.Text

/-!
# DroidPerf.BlackListSound

The black list follows what `tmpname` holds, and that is the last path that was resolved.

A line adds an entry when a module is in that path. Nothing bounds the number of such lines
(`writes_below_iff`), and the entries are those of the lines' own paths only in the files
described by `OwnEntries` (`blackList_exact_iff`).

The function is computed once, for every file: the lines are paired with the paths that
`tmpname` holds at them (`mapped`), and the table is the entries of these pairs up to the first
one that ends the process (`populateBlackListAddresses_init`). The first result counts these
entries. For the second one, the lines are those that the kernel writes (`MapsLine`), whose
fields the calls of `strtok_r` find again (`lineRange_text`, `nameOf_text`).
-/

namespace DroidPerf

open CText

/-! ### The table

A table that was made by appending entries, as far as the 16 bits of its counter go. -/

/-- Entries at the end, in order. -/
def BlackList.recordAll (b : BlackList) (ranges : List BlackListAddressRange) : BlackList :=
  ranges.foldl BlackList.record b

/-- Without entries the list stays what it was. -/
@[simp] theorem BlackList.recordAll_nil (b : BlackList) : b.recordAll [] = b := rfl

/-- The entries of two lists, one list after the other. -/
theorem BlackList.recordAll_append (b : BlackList) (ranges ranges' : List BlackListAddressRange) :
    b.recordAll (ranges ++ ranges') = (b.recordAll ranges).recordAll ranges' :=
  List.foldl_append

/-- An entry behind others is the last of the list. -/
theorem BlackList.record_recordAll (b : BlackList) (ranges : List BlackListAddressRange)
    (range : BlackListAddressRange) :
    (b.recordAll ranges).record range = b.recordAll (ranges ++ [range]) := by
  rw [BlackList.recordAll_append]
  rfl

/-- The counter is the number of entries modulo $2^{16}$. -/
theorem numBlackListAddresses_recordAll (ranges : List BlackListAddressRange) :
    (BlackList.init.recordAll ranges).numBlackListAddresses = ranges.length % 2 ^ 16 := by
  induction ranges using List.reverseRecOn with
  | nil => rfl
  | append_singleton ranges range ih =>
      rw [← BlackList.record_recordAll, List.length_append, List.length_singleton]
      show ((BlackList.init.recordAll ranges).numBlackListAddresses + 1) % 2 ^ 16 = _
      rw [ih, Nat.mod_add_mod]

/-- The index written to goes up by one each time and wraps with the counter. -/
theorem writes_recordAll (ranges : List BlackListAddressRange) :
    (BlackList.init.recordAll ranges).writes =
      (List.range ranges.length).map fun i => i % 2 ^ 16 := by
  induction ranges using List.reverseRecOn with
  | nil => rfl
  | append_singleton ranges range ih =>
      rw [← BlackList.record_recordAll, List.length_append, List.length_singleton,
        List.range_succ, List.map_append]
      show (BlackList.init.recordAll ranges).writes ++
        [(BlackList.init.recordAll ranges).numBlackListAddresses] = _
      rw [ih, numBlackListAddresses_recordAll]
      rfl

/-- As long as the counter has not wrapped, the entries are in the table one after the other. -/
theorem blackListAddresses_recordAll {ranges : List BlackListAddressRange}
    (hlen : ranges.length ≤ 2 ^ 16) {i : Nat} (hi : i < ranges.length) :
    (BlackList.init.recordAll ranges).blackListAddresses i = ranges[i] := by
  -- each further entry goes to another place
  induction ranges using List.reverseRecOn with
  | nil => cases hi
  | append_singleton ranges range ih =>
      rw [List.length_append, List.length_singleton] at hi hlen
      rw [← BlackList.record_recordAll]
      show Function.update (BlackList.init.recordAll ranges).blackListAddresses
        (BlackList.init.recordAll ranges).numBlackListAddresses range i = _
      rw [numBlackListAddresses_recordAll, Nat.mod_eq_of_lt (by omega)]
      rcases Nat.lt_succ_iff_lt_or_eq.mp hi with hlt | rfl
      · rw [Function.update_of_ne (by omega), ih (by omega) hlt, List.getElem_append_left hlt]
      · rw [Function.update_self, List.getElem_append_right (Nat.le_refl _)]
        simp

/-- An address in a range. -/
def BlackListAddressRange.Has (range : BlackListAddressRange) (addr : Nat) : Prop :=
  range.startAddr ≤ addr ∧ addr < range.endAddr

instance (range : BlackListAddressRange) (addr : Nat) : Decidable (range.Has addr) :=
  inferInstanceAs (Decidable (_ ∧ _))

/-- An address is listed if it is in one of the entries. -/
theorem isBlackListedAddress_recordAll {ranges : List BlackListAddressRange}
    (hlen : ranges.length < 2 ^ 16) (addr : Nat) :
    isBlackListedAddress (BlackList.init.recordAll ranges) addr = true ↔
      ∃ range ∈ ranges, range.Has addr := by
  unfold isBlackListedAddress
  rw [numBlackListAddresses_recordAll, Nat.mod_eq_of_lt hlen]
  simp only [List.any_eq_true, List.mem_range, decide_eq_true_eq]
  constructor
  · rintro ⟨i, hi, hhas⟩
    rw [blackListAddresses_recordAll hlen.le hi] at hhas
    exact ⟨ranges[i], List.getElem_mem hi, hhas⟩
  · rintro ⟨range, hmem, hhas⟩
    obtain ⟨i, hi, rfl⟩ := List.mem_iff_getElem.mp hmem
    refine ⟨i, hi, ?_⟩
    rw [blackListAddresses_recordAll hlen.le hi]
    exact hhas

/-! ### One line

What the tokens of a line are is put into functions of the line, `addressOf`, `nameOf` and
`lineRange`. The function gets past a line or ends at it, and adds an entry or none; all four
combinations occur. -/

/-- The two parts of an address field. -/
def rangeOf (addr : List Char) : Option BlackListAddressRange :=
  let first := strtok ['-'] addr
  match first.token, (strtok ['-'] first.save).token with
  | some startStr, some endStr => some ⟨toAddress startStr, toAddress endStr⟩
  | _, _ => none

/-- The address field of a line is its first word. -/
def addressOf (line : List Char) : Option (List Char) :=
  (strtok [' ', '\n'] (line.takeWhile fun c => c ≠ '\x00')).token

/-- The path of a line is its sixth word. -/
def nameOf (line : List Char) : Option (List Char) :=
  (strtok [' ', '\n'] (skipTokens [' ', '\n'] 5 (line.takeWhile fun c => c ≠ '\x00'))).token

/-- The range of a line. -/
def lineRange (line : List Char) : Option BlackListAddressRange := (addressOf line).bind rangeOf

/-- The black-listed modules in a path. -/
def modulesIn (path : List Char) : List (List Char) := blackListedModules.filter (strstr path)

/-- Of an address field that is there, both parts are needed. -/
theorem recordRange_some (b : BlackList) (addr : List Char) :
    recordRange (b, some addr) =
      match rangeOf addr with
      | some range => .ok (b.record range, some (strtok ['-'] addr).str)
      | none => .error b := by
  unfold recordRange rangeOf
  dsimp only
  cases (strtok ['-'] addr).token with
  | none => rfl
  | some startStr =>
      cases (strtok ['-'] (strtok ['-'] addr).save).token with
      | none => rfl
      | some endStr => rfl

/-- Without a range the call ends the process. -/
theorem recordRange_of_none {b : BlackList} {addr : Option (List Char)}
    (h : addr.bind rangeOf = none) : recordRange (b, addr) = .error b := by
  cases addr with
  | none => rfl
  | some addr =>
      have h : rangeOf addr = none := h
      rw [recordRange_some, h]

/-- The string is cut at its dash, so a second module finds no range. -/
theorem recordRange_of_some {b : BlackList} {addr : Option (List Char)}
    {range : BlackListAddressRange} (h : addr.bind rangeOf = some range) :
    ∃ rest, recordRange (b, addr) = .ok (b.record range, some rest) ∧ rangeOf rest = none := by
  obtain ⟨addr, rfl, hrange⟩ := Option.bind_eq_some_iff.mp h
  refine ⟨(strtok ['-'] addr).str, by rw [recordRange_some, hrange], ?_⟩
  unfold rangeOf at hrange ⊢
  dsimp only at hrange ⊢
  split at hrange
  · rename_i startStr endStr hstart _
    have hnil : (strtok ['-'] []).token = none := rfl
    -- of the field only the start is left
    rw [strtok_str hstart, hnil]
    cases (strtok ['-'] (strtok ['-'] addr).str).token with
    | none => rfl
    | some word => rfl
  · cases hrange

/-- Only the modules in the path count. -/
theorem foldlM_populateModule (tmpname : List Char) (modules : List (List Char))
    (st : BlackList × Option (List Char)) :
    modules.foldlM (populateModule tmpname) st =
      (modules.filter (strstr tmpname)).foldlM (fun st _ => recordRange st) st := by
  induction modules generalizing st with
  | nil => rfl
  | cons module modules ih =>
      rw [List.foldlM_cons, List.filter_cons]
      unfold populateModule
      split
      · rw [List.foldlM_cons]
        exact congrArg _ (funext ih)
      · exact ih st

/-- A line that the function does not get past, with the path it finds in `tmpname`: a module
is in the path, and the range is missing or a second module asks for it. -/
def Fatal (p : List Char × List Char) : Prop :=
  modulesIn p.2 ≠ [] ∧ (lineRange p.1 = none ∨ (modulesIn p.2).length ≠ 1)

instance (p : List Char × List Char) : Decidable (Fatal p) :=
  inferInstanceAs (Decidable (_ ∧ _))

/-- The entry of a line. -/
def entryOf (p : List Char × List Char) : Option BlackListAddressRange :=
  if modulesIn p.2 = [] then none else lineRange p.1

/-- What a line does. -/
theorem populateLine_eq (env : MapsEnv) (b : BlackList) (tmpname line : List Char) :
    let path := env.realpathTo (nameOf line) tmpname
    populateLine env (b, tmpname) line =
      if Fatal (line, path) then .error (b.recordAll (entryOf (line, path)).toList)
      else .ok (b.recordAll (entryOf (line, path)).toList, path) := by
  intro path
  have hrun : populateLine env (b, tmpname) line =
      ((modulesIn path).foldlM (fun st _ => recordRange st) (b, addressOf line)).map
        fun st => (st.1, path) := by
    unfold modulesIn
    rw [← foldlM_populateModule]
    rfl
  rw [hrun]
  cases hmodules : modulesIn path with
  | nil =>
      have hfatal : ¬ Fatal (line, path) := fun h => h.1 hmodules
      have hentry : entryOf (line, path) = none := if_pos hmodules
      rw [if_neg hfatal, hentry]
      rfl
  | cons module modules =>
      have hne : modulesIn path ≠ [] := by simp [hmodules]
      have hentry : entryOf (line, path) = lineRange line := if_neg hne
      rw [hentry, List.foldlM_cons]
      cases hrange : lineRange line with
      | none =>
          have hfatal : Fatal (line, path) := ⟨hne, .inl hrange⟩
          rw [recordRange_of_none hrange, if_pos hfatal]
          rfl
      | some range =>
          obtain ⟨rest, hok, hrest⟩ := recordRange_of_some (b := b) hrange
          rw [hok, ok_bind]
          cases modules with
          | nil =>
              have hfatal : ¬ Fatal (line, path) := by simp [Fatal, hmodules, hrange]
              rw [if_neg hfatal]
              rfl
          | cons second modules =>
              have hfatal : Fatal (line, path) := ⟨hne, .inr (by simp [hmodules])⟩
              -- the second module finds the field already cut
              have hnext : (some rest).bind rangeOf = none := hrest
              rw [List.foldlM_cons, recordRange_of_none hnext, if_pos hfatal]
              rfl

/-! ### All lines

The loop over the lines is described by the pairs of lines and paths. A line without a path of
its own is paired with an earlier one. -/

/-- Each line with what `tmpname` holds after it: the last path that was resolved. -/
def mapped {α : Type} (name : α → Option (List Char)) (env : MapsEnv) :
    List Char → List α → List (α × List Char)
  | _, [] => []
  | tmpname, line :: lines =>
    let path := env.realpathTo (name line) tmpname
    (line, path) :: mapped name env path lines

/-- The elements up to the first that satisfies `p`, which is included. -/
def throughFirst {α : Type} (p : α → Bool) : List α → List α
  | [] => []
  | a :: l => if p a then [a] else a :: throughFirst p l

/-- The entries that the lines make. -/
def entriesOf (ps : List (List Char × List Char)) : List BlackListAddressRange :=
  (throughFirst (fun p => decide (Fatal p)) ps).filterMap entryOf

/-- Behind a line that ends the process there are no entries. -/
theorem entriesOf_of_fatal {p : List Char × List Char} (h : Fatal p)
    (ps : List (List Char × List Char)) : entriesOf (p :: ps) = (entryOf p).toList := by
  rw [entriesOf, throughFirst, if_pos (decide_eq_true h)]
  cases hentry : entryOf p with
  | none => rw [List.filterMap_cons_none hentry]; rfl
  | some range => rw [List.filterMap_cons_some hentry]; rfl

/-- The entry of a line comes before those of the later lines. -/
theorem entriesOf_of_not_fatal {p : List Char × List Char} (h : ¬ Fatal p)
    (ps : List (List Char × List Char)) :
    entriesOf (p :: ps) = (entryOf p).toList ++ entriesOf ps := by
  rw [entriesOf, throughFirst, if_neg (by simpa using h)]
  cases hentry : entryOf p with
  | none => rw [List.filterMap_cons_none hentry]; rfl
  | some range => rw [List.filterMap_cons_some hentry]; rfl

/-- What the loop over the lines does. -/
theorem populateLines_eq (env : MapsEnv) (lines : List (List Char)) (b : BlackList)
    (tmpname : List Char) :
    let ps := mapped nameOf env tmpname lines
    (lines.foldlM (populateLine env) (b, tmpname)).map Prod.fst =
      if ∃ p ∈ ps, Fatal p then .error (b.recordAll (entriesOf ps))
      else .ok (b.recordAll (entriesOf ps)) := by
  induction lines generalizing b tmpname with
  | nil => simp [mapped, entriesOf, throughFirst]; rfl
  | cons line lines ih =>
      intro ps
      have hps : ps = (line, env.realpathTo (nameOf line) tmpname) ::
        mapped nameOf env (env.realpathTo (nameOf line) tmpname) lines := rfl
      rw [List.foldlM_cons, populateLine_eq, hps]
      -- the line ends the process or not, and then a later one does or not
      split_ifs with hfatal hany hany
      · rw [entriesOf_of_fatal hfatal]
        rfl
      · exact absurd ⟨_, List.mem_cons_self, hfatal⟩ hany
      · rw [ok_bind, ih, entriesOf_of_not_fatal hfatal, BlackList.recordAll_append, if_pos]
        obtain ⟨p, hp, hpfatal⟩ := hany
        rcases List.mem_cons.mp hp with rfl | hp
        · exact absurd hpfatal hfatal
        · exact ⟨p, hp, hpfatal⟩
      · rw [ok_bind, ih, entriesOf_of_not_fatal hfatal, BlackList.recordAll_append, if_neg]
        exact fun ⟨p, hp, hpfatal⟩ => hany ⟨p, List.mem_cons_of_mem _ hp, hpfatal⟩

/-- The lines of the file with their paths. -/
def mappedLines (env : MapsEnv) : List (List Char × List Char) :=
  match env.maps with
  | some content => mapped nameOf env env.tmpname (getLines content)
  | none => []

/-- The first page, which is added behind the last line. -/
def firstPage (env : MapsEnv) : List BlackListAddressRange :=
  match env.maps with
  | some _ => [⟨0, env.pageSize⟩]
  | none => []

/-- All entries. -/
def allEntries (env : MapsEnv) : List BlackListAddressRange :=
  entriesOf (mappedLines env) ++ if ∃ p ∈ mappedLines env, Fatal p then [] else firstPage env

/-- What the first call does. -/
theorem populateBlackListAddresses_init (env : MapsEnv) :
    populateBlackListAddresses env .init =
      if ∃ p ∈ mappedLines env, Fatal p then .error (BlackList.init.recordAll (allEntries env))
      else .ok (BlackList.init.recordAll (allEntries env)) := by
  have hinit : BlackList.init.numBlackListAddresses = 0 := rfl
  unfold populateBlackListAddresses
  rw [if_pos hinit]
  cases hmaps : env.maps with
  | none => simp [allEntries, firstPage, mappedLines, hmaps, entriesOf, throughFirst]
  | some content =>
      have hlines : mappedLines env = mapped nameOf env env.tmpname (getLines content) := by
        rw [mappedLines, hmaps]
      have hpage : firstPage env = [⟨0, env.pageSize⟩] := by rw [firstPage, hmaps]
      -- the page is added to what the loop returns, whatever that is
      have hlast : ∀ run : Except BlackList (BlackList × List Char),
          (run >>= fun st => pure (st.1.record ⟨0, env.pageSize⟩)) =
            (run.map Prod.fst >>= fun b => .ok (b.record ⟨0, env.pageSize⟩)) := by
        intro run
        cases run with
        | error b => rfl
        | ok st => rfl
      have hrun := populateLines_eq env (getLines content) .init env.tmpname
      dsimp only at hrun ⊢
      rw [hlast, hrun, ← hlines, allEntries, hpage]
      split_ifs with hfatal
      · rw [List.append_nil]
        rfl
      · rw [ok_bind, BlackList.record_recordAll]

/-- The table after a call, also when the call does not return. -/
def tableAfter : Except BlackList BlackList → BlackList
  | .ok b => b
  | .error b => b

/-- The table has all the entries, whether the call returns or not. -/
theorem tableAfter_init (env : MapsEnv) :
    tableAfter (populateBlackListAddresses env .init) =
      BlackList.init.recordAll (allEntries env) := by
  rw [populateBlackListAddresses_init]
  split_ifs <;> rfl

/-! ### How many entries there are

Whether the writes stay inside the table depends on the number of entries alone. -/

/-- No entry was written outside the table, and the counter is the number of entries. -/
def BlackList.Bounded (b : BlackList) : Prop :=
  (∀ i ∈ b.writes, i < maxBlackListAddress) ∧ b.numBlackListAddresses = b.writes.length

/-- The number of lines with a range and with a module in the last path that was resolved, up
to the line that the function does not get past; and the first page, if it gets past all. -/
def entryCount (env : MapsEnv) : Nat :=
  let ps := mappedLines env
  (throughFirst (fun p => decide (Fatal p)) ps).countP
      (fun p => modulesIn p.2 ≠ [] ∧ lineRange p.1 ≠ none) +
    if env.maps = none ∨ ∃ p ∈ ps, Fatal p then 0 else 1

/-- Up to 1024 entries stay in the table. -/
theorem recordAll_bounded_iff (ranges : List BlackListAddressRange) :
    (BlackList.init.recordAll ranges).Bounded ↔ ranges.length ≤ maxBlackListAddress := by
  unfold BlackList.Bounded
  rw [writes_recordAll, numBlackListAddresses_recordAll, List.length_map, List.length_range]
  simp only [List.mem_map, List.mem_range, maxBlackListAddress]
  constructor
  · rintro ⟨hbelow, hcount⟩
    by_contra hlen
    have hbad := hbelow 1024 ⟨1024, by omega, by decide⟩
    omega
  · intro hlen
    refine ⟨?_, Nat.mod_eq_of_lt (by omega)⟩
    rintro _ ⟨i, hi, rfl⟩
    exact (Nat.mod_le i _).trans_lt (by omega)

/-- The entries are counted on the lines. -/
theorem length_entriesOf (ps : List (List Char × List Char)) :
    (entriesOf ps).length = (throughFirst (fun p => decide (Fatal p)) ps).countP
      fun p => modulesIn p.2 ≠ [] ∧ lineRange p.1 ≠ none := by
  unfold entriesOf
  rw [List.length_filterMap_eq_countP]
  refine List.countP_congr fun p _ => ?_
  unfold entryOf
  split_ifs with hmodules
  · simp [hmodules]
  · simp [hmodules, Option.isSome_iff_ne_none]

/-- `entryCount` is the number of entries. -/
theorem length_allEntries (env : MapsEnv) : (allEntries env).length = entryCount env := by
  unfold allEntries entryCount
  rw [List.length_append, length_entriesOf]
  congr 1
  split_ifs with hfatal hnone hnone
  · rfl
  · exact absurd (.inr hfatal) hnone
  · rw [firstPage, hnone.resolve_right hfatal]
    rfl
  · obtain ⟨content, hmaps⟩ := Option.ne_none_iff_exists'.mp (not_or.mp hnone).1
    rw [firstPage, hmaps]
    rfl

/-! ### Well-formed files

The kernel's lines as a structure, with what the fields are made of as its invariant; the text
is computed from it. A path may have blanks, at which the tokens cut it. -/

/-- A line of the file: the addresses in hexadecimal, four more fields, and possibly a path
behind blanks. -/
structure MapsLine where
  start : List Char
  stop : List Char
  perms : List Char
  offset : List Char
  dev : List Char
  inode : List Char
  gap : Nat
  path : Option (List Char)
  start_hex : HexNumber start
  start_lt : hexValue start < 2 ^ 63
  stop_hex : HexNumber stop
  stop_lt : hexValue stop < 2 ^ 63
  fields : ∀ field ∈ [perms, offset, dev, inode], Word [' ', '\n', '\x00'] field
  path_clean : ∀ p ∈ path, (∀ c ∈ p.head?, c ≠ ' ') ∧ p ≠ [] ∧ '\n' ∉ p ∧ '\x00' ∉ p

namespace MapsLine

/-- What follows the inode. -/
def tail (l : MapsLine) : List Char :=
  match l.path with
  | some path => ' ' :: (List.replicate l.gap ' ' ++ path)
  | none => List.replicate l.gap ' '

/-- The text, without its line end. -/
def text (l : MapsLine) : List Char :=
  (l.start ++ '-' :: l.stop) ++ ' ' :: (l.perms ++ ' ' :: (l.offset ++ ' ' :: (l.dev ++
    ' ' :: (l.inode ++ l.tail))))

/-- The addresses. -/
def range (l : MapsLine) : BlackListAddressRange := ⟨hexValue l.start, hexValue l.stop⟩

/-- The path as far as it has no blank. -/
def name (l : MapsLine) : Option (List Char) := l.path.map fun path => path.takeWhile (· ≠ ' ')

/-- The line's own path is black-listed. -/
def OwnListed (env : MapsEnv) (l : MapsLine) : Prop :=
  ∃ path ∈ l.path.bind env.realpath, modulesIn path ≠ []

/-- The fields between address and path are words for `strtok_r`. -/
theorem word_of_field (l : MapsLine) {field : List Char}
    (h : field ∈ [l.perms, l.offset, l.dev, l.inode]) : Word [' ', '\n'] field := by
  have hword := l.fields field h
  refine ⟨hword.nonempty, fun c hc hmem => hword.clean c hc ?_⟩
  exact List.mem_append_left ['\x00'] hmem

/-- The address with its dash is one word of the line. -/
theorem word_address (l : MapsLine) : Word [' ', '\n'] (l.start ++ '-' :: l.stop) := by
  refine ⟨by simp, fun c hc hmem => ?_⟩
  have hnone : hexDigit c = none ∧ c ≠ '-' := by
    rcases List.mem_pair.mp hmem with rfl | rfl <;> exact ⟨rfl, by decide⟩
  rcases List.mem_append.mp hc with hc | hc
  · exact l.start_hex.notMem hnone.1 hc
  · rcases List.mem_cons.mp hc with rfl | hc
    · exact hnone.2 rfl
    · exact l.stop_hex.notMem hnone.1 hc

/-- A line has no line end and no NUL. -/
theorem text_clean (l : MapsLine) {c : Char} (hc : c = '\n' ∨ c = '\x00') : c ∉ l.text := by
  have hdigit : hexDigit c = none ∧ c ≠ '-' ∧ c ≠ ' ' := by
    rcases hc with rfl | rfl <;> exact ⟨rfl, by decide, by decide⟩
  have hfield : ∀ field ∈ [l.perms, l.offset, l.dev, l.inode], c ∉ field := by
    intro field hfield hmem
    refine (l.fields field hfield).clean c hmem ?_
    rcases hc with rfl | rfl <;> decide
  have htail : c ∉ l.tail := by
    unfold tail
    split
    · rename_i path hpath
      have hclean := l.path_clean path hpath
      have hpath : c ∉ path := by
        rcases hc with rfl | rfl
        · exact hclean.2.2.1
        · exact hclean.2.2.2
      simp [hdigit.2.2, hpath]
    · simp [hdigit.2.2]
  have hstart := l.start_hex.notMem hdigit.1
  have hstop := l.stop_hex.notMem hdigit.1
  simp only [List.forall_mem_cons] at hfield
  simp [text, hstart, hstop, hfield, htail, hdigit.2]

/-- There is no NUL in a line, so all of it is copied. -/
theorem takeWhile_text (l : MapsLine) : l.text.takeWhile (fun c => c ≠ '\x00') = l.text := by
  rw [List.takeWhile_eq_self_iff]
  intro c hc
  have hne : c ≠ '\x00' := fun h => l.text_clean (.inr h) hc
  simpa using hne

/-- The first word of a line is its address. -/
theorem addressOf_text (l : MapsLine) : addressOf l.text = some (l.start ++ '-' :: l.stop) := by
  rw [addressOf, takeWhile_text, text, strtok_field l.word_address (by simp)]

/-- The address is taken apart at the dash, and `strtol` reads both halves. -/
theorem rangeOf_address (l : MapsLine) : rangeOf (l.start ++ '-' :: l.stop) = some l.range := by
  have hword : ∀ digits : List Char, HexNumber digits → Word ['-'] digits := by
    intro digits h
    refine ⟨h.nonempty, fun c hc hmem => ?_⟩
    rw [List.mem_singleton.mp hmem] at hc
    exact h.notMem rfl hc
  have hstop : strtok ['-'] l.stop = ⟨some l.stop, l.stop, []⟩ :=
    strtok_end (List.forall_mem_nil _) (hword _ l.stop_hex)
  -- the numbers are below $2^{63}$, so `strtol` does not cut them
  have haddress : ∀ digits : List Char, HexNumber digits → hexValue digits < 2 ^ 63 →
      toAddress digits = hexValue digits := by
    intro digits h hlt
    rw [toAddress, h.strtol_eq hlt]
    omega
  unfold rangeOf
  rw [strtok_field (hword _ l.start_hex) (by simp)]
  dsimp only
  rw [hstop]
  show some (BlackListAddressRange.mk (toAddress l.start) (toAddress l.stop)) = _
  rw [haddress _ l.start_hex l.start_lt, haddress _ l.stop_hex l.stop_lt]
  rfl

/-- The range found in a line is the one that was written. -/
theorem lineRange_text (l : MapsLine) : lineRange l.text = some l.range := by
  rw [lineRange, addressOf_text, Option.bind_some, rangeOf_address]

/-- The path up to its first blank is a word, and a blank or the end follows. -/
theorem word_path (l : MapsLine) {path : List Char} (h : l.path = some path) :
    Word [' ', '\n'] (path.takeWhile fun c => c ≠ ' ') ∧
      ∀ c ∈ (path.dropWhile fun c => c ≠ ' ').head?, c ∈ [' ', '\n'] := by
  obtain ⟨hhead, hne, hline, -⟩ := l.path_clean path h
  refine ⟨⟨?_, fun c hc => ?_⟩, fun c hc => ?_⟩
  · obtain ⟨c, rest, rfl⟩ := List.exists_cons_of_ne_nil hne
    simp [hhead c rfl]
  · have hblank : c ≠ ' ' := by simpa using List.mem_takeWhile_imp hc
    have hend : c ≠ '\n' := by
      rintro rfl
      exact hline ((List.takeWhile_prefix _).mem hc)
    simp [hblank, hend]
  · have hstop := List.head?_dropWhile_not (fun c => decide (c ≠ ' ')) path
    rw [Option.mem_def.mp hc] at hstop
    have hstop : c = ' ' := by simpa using hstop
    simp [hstop]

/-- The sixth word of a line is its path up to the first blank, if the line has one. -/
theorem nameOf_text (l : MapsLine) : nameOf l.text = l.name := by
  have hfield : ∀ field ∈ [l.perms, l.offset, l.dev, l.inode], ∀ rest,
      (strtok [' ', '\n'] (field ++ ' ' :: rest)).save = rest := by
    intro field hmem rest
    rw [strtok_field (l.word_of_field hmem) (by simp)]
  simp only [List.forall_mem_cons] at hfield
  obtain ⟨hperms, hoffset, hdev, -⟩ := hfield
  have hblank : ∀ n, ∀ c ∈ List.replicate n ' ', c ∈ [' ', '\n'] := by
    intro n c hc
    rw [(List.mem_replicate.mp hc).2]
    exact List.mem_cons_self
  have hinode : Word [' ', '\n'] l.inode := l.word_of_field (by simp)
  rw [nameOf, takeWhile_text, text]
  simp only [skipTokens, strtok_field l.word_address List.mem_cons_self, hperms, hoffset, hdev]
  unfold tail name
  cases hpath : l.path with
  | none =>
      -- behind the inode there are only blanks
      have hend := strtok_word (List.forall_mem_nil _) hinode
        fun c hc => hblank l.gap c (List.mem_of_mem_head? hc)
      rw [List.nil_append] at hend
      dsimp only
      rw [hend, List.drop_replicate, strtok_gap (hblank _)]
      rfl
  | some path =>
      obtain ⟨hword, hrest⟩ := l.word_path hpath
      have hlast := strtok_word (hblank l.gap) hword hrest
      rw [List.takeWhile_append_dropWhile] at hlast
      dsimp only
      rw [strtok_field hinode List.mem_cons_self, hlast]
      rfl

end MapsLine

/-- The content of a file with these lines. -/
def mapsContent (lines : List MapsLine) : List Char := lines.flatMap fun l => l.text ++ ['\n']

/-- Behind the last line end the loop sees one more, empty line. -/
theorem getLines_mapsContent (lines : List MapsLine) :
    getLines (mapsContent lines) = lines.map MapsLine.text ++ [[]] := by
  unfold getLines mapsContent
  induction lines with
  | nil => rfl
  | cons l lines ih =>
      rw [List.flatMap_cons, List.append_assoc, List.singleton_append,
        List.splitOn_append_cons_self_of_not_mem (l.text_clean (.inl rfl)), ih]
      rfl

/-- What `tmpname` holds after some lines. -/
def lastPath {α : Type} (name : α → Option (List Char)) (env : MapsEnv) (tmpname : List Char)
    (lines : List α) : List Char :=
  lines.foldl (fun tmpname line => env.realpathTo (name line) tmpname) tmpname

/-- The paths of some lines go on from the last path of the lines before. -/
theorem mapped_append {α : Type} (name : α → Option (List Char)) (env : MapsEnv)
    (tmpname : List Char) (lines lines' : List α) :
    mapped name env tmpname (lines ++ lines') =
      mapped name env tmpname lines ++
        mapped name env (lastPath name env tmpname lines) lines' := by
  induction lines generalizing tmpname with
  | nil => rfl
  | cons line lines ih =>
      rw [List.cons_append, mapped, mapped, ih]
      rfl

/-- Every line has a path, and there are no other lines. -/
theorem map_fst_mapped {α : Type} (name : α → Option (List Char)) (env : MapsEnv)
    (tmpname : List Char) (lines : List α) :
    (mapped name env tmpname lines).map Prod.fst = lines := by
  induction lines generalizing tmpname with
  | nil => rfl
  | cons line lines ih => rw [mapped, List.map_cons, ih]

/-- The pairs of the text are those of the lines. -/
theorem mapped_text (env : MapsEnv) (tmpname : List Char) (lines : List MapsLine) :
    mapped nameOf env tmpname (lines.map MapsLine.text) =
      (mapped MapsLine.name env tmpname lines).map fun p => (p.1.text, p.2) := by
  induction lines generalizing tmpname with
  | nil => rfl
  | cons l lines ih =>
      rw [List.map_cons, mapped, mapped, l.nameOf_text, ih]
      rfl

/-- The path that the last line leaves behind is the same from the text and from the lines. -/
theorem lastPath_text (env : MapsEnv) (tmpname : List Char) (lines : List MapsLine) :
    lastPath nameOf env tmpname (lines.map MapsLine.text) =
      lastPath MapsLine.name env tmpname lines := by
  unfold lastPath
  rw [List.foldl_map]
  simp only [MapsLine.nameOf_text]

/-- Each line with the last path that was resolved by then. -/
def MapsEnv.paths (env : MapsEnv) (lines : List MapsLine) : List (MapsLine × List Char) :=
  mapped MapsLine.name env env.tmpname lines

/-- The last path that was resolved at the end of the file. -/
def MapsEnv.endPath (env : MapsEnv) (lines : List MapsLine) : List Char :=
  lastPath MapsLine.name env env.tmpname lines

/-- The pairs of a file: its lines, and the empty line behind the last line end. -/
theorem mappedLines_mapsContent {env : MapsEnv} {lines : List MapsLine}
    (h : env.maps = some (mapsContent lines)) :
    mappedLines env =
      (env.paths lines).map (fun p => (p.1.text, p.2)) ++ [([], env.endPath lines)] := by
  have hempty : ∀ path, env.realpathTo (nameOf []) path = path := fun _ => rfl
  rw [mappedLines, h]
  dsimp only
  rw [getLines_mapsContent, mapped_append, mapped_text, lastPath_text, mapped, mapped, hempty]
  rfl

/-- What the black list is for: it has the first page and the lines whose own path is
black-listed. -/
def BlackLists (env : MapsEnv) (lines : List MapsLine) : Prop :=
  ∃ b, populateBlackListAddresses env .init = .ok b ∧ ∀ addr,
    isBlackListedAddress b addr = true ↔
      addr < env.pageSize ∨ ∃ l ∈ lines, l.OwnListed env ∧ l.range.Has addr

/-- The lines whose last resolved path is black-listed have the addresses of the lines whose
own path is, there is one module at most in each of these paths, and none at the end. -/
structure OwnEntries (env : MapsEnv) (lines : List MapsLine) : Prop where
  one : ∀ p ∈ env.paths lines, (modulesIn p.2).length ≤ 1
  none_last : modulesIn (env.endPath lines) = []
  /-- A line that shows the path of an earlier one has no addresses of its own. -/
  stale : ∀ p ∈ env.paths lines, modulesIn p.2 ≠ [] → ¬ p.1.OwnListed env →
    ∀ addr, p.1.range.Has addr →
      addr < env.pageSize ∨ ∃ l ∈ lines, l.OwnListed env ∧ l.range.Has addr
  /-- So has a line whose path is cut at a blank. -/
  cut : ∀ p ∈ env.paths lines, p.1.OwnListed env → modulesIn p.2 = [] →
    ∀ addr, p.1.range.Has addr →
      addr < env.pageSize ∨ ∃ q ∈ env.paths lines, modulesIn q.2 ≠ [] ∧ q.1.range.Has addr

/-- A file that is read to its end. -/
theorem not_fatal_iff {env : MapsEnv} {lines : List MapsLine}
    (h : env.maps = some (mapsContent lines)) :
    (¬ ∃ p ∈ mappedLines env, Fatal p) ↔
      (∀ p ∈ env.paths lines, (modulesIn p.2).length ≤ 1) ∧
        modulesIn (env.endPath lines) = [] := by
  -- the empty line has no range, so it is fatal if there is a module in the path
  have hempty : ∀ path, ¬ Fatal ([], path) ↔ modulesIn path = [] := by
    intro path
    have hnone : lineRange [] = none := rfl
    simp [Fatal, hnone]
  have hline : ∀ p : MapsLine × List Char,
      ¬ Fatal (p.1.text, p.2) ↔ (modulesIn p.2).length ≤ 1 := by
    intro p
    unfold Fatal
    rw [p.1.lineRange_text]
    cases modulesIn p.2 with
    | nil => simp
    | cons module modules => simp
  rw [mappedLines_mapsContent h, ← hempty]
  simp only [List.mem_append, List.mem_map, List.mem_singleton, not_exists, not_and, ← hline]
  constructor
  · intro hall
    exact ⟨fun p hp => hall _ (.inl ⟨p, hp, rfl⟩), hall _ (.inr rfl)⟩
  · rintro ⟨hlines, hend⟩ _ (⟨p, hp, rfl⟩ | rfl)
    · exact hlines p hp
    · exact hend

/-- Elements before the first one that satisfies `p` are all taken. -/
theorem throughFirst_append {α : Type} {p : α → Bool} {l : List α}
    (h : ∀ a ∈ l, p a = false) (l' : List α) :
    throughFirst p (l ++ l') = l ++ throughFirst p l' := by
  induction l with
  | nil => rfl
  | cons a l ih =>
      obtain ⟨ha, hl⟩ := List.forall_mem_cons.mp h
      rw [List.cons_append, throughFirst, ha, ih hl]
      rfl

/-- If none does, so is the whole list. -/
theorem throughFirst_of_forall {α : Type} {p : α → Bool} {l : List α}
    (h : ∀ a ∈ l, p a = false) : throughFirst p l = l := by
  have happend := throughFirst_append h []
  rwa [throughFirst, List.append_nil] at happend

/-- The addresses of a file that is read to its end: the first page and the lines with a
black-listed module in the last path that was resolved. -/
theorem mem_allEntries {env : MapsEnv} {lines : List MapsLine}
    (h : env.maps = some (mapsContent lines)) (hread : ¬ ∃ p ∈ mappedLines env, Fatal p)
    (addr : Nat) :
    (∃ range ∈ allEntries env, range.Has addr) ↔
      addr < env.pageSize ∨ ∃ p ∈ env.paths lines, modulesIn p.2 ≠ [] ∧ p.1.range.Has addr := by
  have hpage : firstPage env = [⟨0, env.pageSize⟩] := by rw [firstPage, h]
  have hall : ∀ p ∈ mappedLines env, decide (Fatal p) = false := by
    intro p hp
    simpa using fun hfatal => hread ⟨p, hp, hfatal⟩
  have hlast : entryOf ([], env.endPath lines) = none := by
    unfold entryOf
    split_ifs <;> rfl
  have hline : ∀ (p : MapsLine × List Char) (range : BlackListAddressRange),
      entryOf (p.1.text, p.2) = some range ↔ modulesIn p.2 ≠ [] ∧ p.1.range = range := by
    intro p range
    unfold entryOf
    rw [p.1.lineRange_text]
    split_ifs with hmodules
    · simp [hmodules]
    · simp [hmodules]
  rw [allEntries, if_neg hread, hpage, entriesOf, throughFirst_of_forall hall,
    mappedLines_mapsContent h, List.filterMap_append, List.filterMap_cons_none hlast]
  simp only [List.filterMap_nil, List.append_nil, List.mem_append, List.mem_filterMap,
    List.mem_map, List.mem_singleton]
  constructor
  · rintro ⟨range, ⟨_, ⟨p, hp, rfl⟩, hentry⟩ | rfl, hhas⟩
    · obtain ⟨hmodules, rfl⟩ := (hline p range).mp hentry
      exact .inr ⟨p, hp, hmodules, hhas⟩
    · exact .inl hhas.2
  · rintro (haddr | ⟨p, hp, hmodules, hhas⟩)
    · exact ⟨_, .inr rfl, Nat.zero_le addr, haddr⟩
    · exact ⟨_, .inl ⟨_, ⟨p, hp, rfl⟩, (hline p _).mpr ⟨hmodules, rfl⟩⟩, hhas⟩

/-- The call returns if no line ends the process, and then the table has all the entries. -/
theorem populate_eq_ok {env : MapsEnv} {b : BlackList} :
    populateBlackListAddresses env .init = .ok b ↔
      (¬ ∃ p ∈ mappedLines env, Fatal p) ∧ b = BlackList.init.recordAll (allEntries env) := by
  rw [populateBlackListAddresses_init]
  split_ifs with hfatal
  · exact ⟨(fun h => by cases h), fun h => absurd hfatal h.1⟩
  · rw [Except.ok.injEq, eq_comm]
    exact (and_iff_right hfatal).symm

/-- The list is what it is for if the file is read to its end, and its entries cover the
addresses that they should. -/
theorem blackLists_iff {env : MapsEnv} {lines : List MapsLine}
    (h : env.maps = some (mapsContent lines)) (hfit : entryCount env ≤ maxBlackListAddress) :
    BlackLists env lines ↔ (¬ ∃ p ∈ mappedLines env, Fatal p) ∧ ∀ addr,
      (addr < env.pageSize ∨ ∃ p ∈ env.paths lines, modulesIn p.2 ≠ [] ∧ p.1.range.Has addr) ↔
        addr < env.pageSize ∨ ∃ l ∈ lines, l.OwnListed env ∧ l.range.Has addr := by
  have hlen : (allEntries env).length < 2 ^ 16 := by
    rw [length_allEntries]
    exact hfit.trans_lt (by decide)
  unfold BlackLists
  constructor
  · rintro ⟨b, hb, hexact⟩
    obtain ⟨hread, rfl⟩ := populate_eq_ok.mp hb
    refine ⟨hread, fun addr => ?_⟩
    rw [← mem_allEntries h hread, ← isBlackListedAddress_recordAll hlen]
    exact hexact addr
  · rintro ⟨hread, hexact⟩
    refine ⟨_, populate_eq_ok.mpr ⟨hread, rfl⟩, fun addr => ?_⟩
    rw [isBlackListedAddress_recordAll hlen, mem_allEntries h hread]
    exact hexact addr

/-- **The black list.** When all matches fit in the table, the black list is what it is for
exactly in the files that `OwnEntries` describes. -/
theorem blackList_exact_iff {env : MapsEnv} {lines : List MapsLine}
    (h : env.maps = some (mapsContent lines)) (hfit : entryCount env ≤ maxBlackListAddress) :
    BlackLists env lines ↔ OwnEntries env lines := by
  rw [blackLists_iff h hfit, not_fatal_iff h]
  have hlines : (env.paths lines).map Prod.fst = lines := map_fst_mapped _ _ _ _
  have hmem : ∀ p ∈ env.paths lines, p.1 ∈ lines := fun p hp =>
    hlines ▸ List.mem_map_of_mem hp
  constructor
  · rintro ⟨⟨hone, hend⟩, hexact⟩
    refine ⟨hone, hend, fun p hp hmodules _ addr hhas => ?_, fun p hp hown _ addr hhas => ?_⟩
    · exact (hexact addr).mp (.inr ⟨p, hp, hmodules, hhas⟩)
    · exact (hexact addr).mpr (.inr ⟨p.1, hmem p hp, hown, hhas⟩)
  · rintro ⟨hone, hend, hstale, hcut⟩
    refine ⟨⟨hone, hend⟩, fun addr => ⟨?_, ?_⟩⟩
    · rintro (haddr | ⟨p, hp, hmodules, hhas⟩)
      · exact .inl haddr
      · -- an entry for the line's own path, or for an earlier one
        by_cases hown : p.1.OwnListed env
        · exact .inr ⟨p.1, hmem p hp, hown, hhas⟩
        · exact hstale p hp hmodules hown addr hhas
    · rintro (haddr | ⟨l, hl, hown, hhas⟩)
      · exact .inl haddr
      · rw [← hlines] at hl
        obtain ⟨⟨l, path⟩, hp, rfl⟩ := List.mem_map.mp hl
        -- the line has an entry, or its path was cut
        by_cases hmodules : modulesIn path = []
        · exact hcut _ hp hown hmodules addr hhas
        · exact .inr ⟨_, hp, hmodules, hhas⟩

/-- A mapping of the C library. -/
def libcLine : MapsLine where
  start := ['7', 'f', '0', '0', '0', '0', '0', '0']
  stop := ['7', 'f', '0', '0', '1', '0', '0', '0']
  perms := ['r', '-', 'x', 'p']
  offset := ['0']
  dev := ['0', '8', ':', '0', '1']
  inode := ['1', '7']
  gap := 4
  path := some ['/', 'l', 'i', 'b', 'c', '.', 's', 'o']
  start_hex := by decide
  start_lt := by decide
  stop_hex := by decide
  stop_lt := by decide
  fields := by decide
  path_clean := by simp

/-- Memory without a file. -/
def anonymousLine : MapsLine :=
  { libcLine with
    start := ['7', 'f', '0', '0', '1', '0', '0', '0']
    stop := ['7', 'f', '0', '0', '2', '0', '0', '0']
    inode := ['0']
    path := none
    start_hex := by decide
    start_lt := by decide
    stop_hex := by decide
    stop_lt := by decide
    fields := by decide
    path_clean := by simp }

/-- A mapping of the dynamic linker. -/
def linkerLine : MapsLine :=
  { libcLine with
    start := ['7', 'f', '0', '0', '2', '0', '0', '0']
    stop := ['7', 'f', '0', '0', '3', '0', '0', '0']
    path := some ['/', 'l', 'd', '.', 's', 'o']
    start_hex := by decide
    start_lt := by decide
    stop_hex := by decide
    stop_lt := by decide
    path_clean := by simp }

/-- Files resolve to themselves. -/
def plainEnv (lines : List MapsLine) : MapsEnv where
  maps := some (mapsContent lines)
  realpath := some
  tmpname := []
  pageSize := 4096

theorem libcLine_ownListed (lines : List MapsLine) : libcLine.OwnListed (plainEnv lines) :=
  ⟨_, rfl, by decide +kernel⟩

/-- With the C library and the linker alone, the black list is exact. -/
theorem blackList_exact_linker :
    BlackLists (plainEnv [libcLine, linkerLine]) [libcLine, linkerLine] := by
  have hpaths : ∀ p ∈ (plainEnv [libcLine, linkerLine]).paths [libcLine, linkerLine],
      p.1.OwnListed (plainEnv [libcLine, linkerLine]) ∧ modulesIn p.2 ≠ [] ∨
        ¬ p.1.OwnListed (plainEnv [libcLine, linkerLine]) ∧ modulesIn p.2 = [] := by
    intro p hp
    rcases List.mem_pair.mp hp with rfl | rfl
    · exact .inl ⟨libcLine_ownListed _, by decide +kernel⟩
    · refine .inr ⟨?_, by decide +kernel⟩
      rintro ⟨path, hpath, hmodules⟩
      cases hpath
      exact hmodules (by decide +kernel)
  refine (blackList_exact_iff rfl (by decide +kernel)).mpr
    ⟨by decide +kernel, by decide +kernel, ?_, ?_⟩
  · intro p hp hmodules hown
    rcases hpaths p hp with h | h
    · exact absurd h.1 hown
    · exact absurd h.2 hmodules
  · intro p hp hown hmodules
    rcases hpaths p hp with h | h
    · exact absurd hmodules h.2
    · exact absurd hown h.1

/-- The memory between the two is listed with the C library. -/
theorem blackList_not_exact : ¬ ∀ (env : MapsEnv) (lines : List MapsLine),
    env.maps = some (mapsContent lines) → lines ≠ [] → (∀ l ∈ lines.head?, l.path ≠ none) →
      entryCount env ≤ maxBlackListAddress → BlackLists env lines := by
  intro hall
  have hfit : entryCount (plainEnv [libcLine, anonymousLine, linkerLine]) ≤
    maxBlackListAddress := by decide +kernel
  have hlists := hall _ [libcLine, anonymousLine, linkerLine] rfl (List.cons_ne_nil _ _)
    (by decide) hfit
  have hexact := ((blackLists_iff rfl hfit).mp hlists).2 0x7f001000
  have hlisted : ∃ p ∈ (plainEnv [libcLine, anonymousLine, linkerLine]).paths
      [libcLine, anonymousLine, linkerLine], modulesIn p.2 ≠ [] ∧ p.1.range.Has 0x7f001000 :=
    ⟨(anonymousLine, ['/', 'l', 'i', 'b', 'c', '.', 's', 'o']),
      List.mem_cons_of_mem _ List.mem_cons_self, by decide +kernel, by decide⟩
  rcases hexact.mp (.inr hlisted) with hpage | ⟨l, hl, hown, hhas⟩
  · exact absurd hpage (by decide)
  · simp only [List.mem_cons, List.not_mem_nil, or_false] at hl
    rcases hl with rfl | rfl | rfl
    · exact absurd hhas (by decide)
    · obtain ⟨_, hpath, -⟩ := hown
      cases hpath
    · exact absurd hhas (by decide)

/-! ### More mappings than places

A file with one line too many, made of pages of one library whose name begins like that of the
C library. -/

/-- Lines that all show one black-listed module have an entry each. -/
theorem length_le_allEntries {env : MapsEnv} {lines : List MapsLine}
    (h : env.maps = some (mapsContent lines))
    (hpaths : ∀ p ∈ env.paths lines, (modulesIn p.2).length = 1) :
    lines.length ≤ (allEntries env).length := by
  have hpass : ∀ p ∈ (env.paths lines).map (fun p => (p.1.text, p.2)),
      decide (Fatal p) = false := by
    intro p hp
    obtain ⟨q, hq, rfl⟩ := List.mem_map.mp hp
    simp [Fatal, q.1.lineRange_text, hpaths q hq]
  have hcounts : ∀ p ∈ (env.paths lines).map (fun p => (p.1.text, p.2)),
      decide (modulesIn p.2 ≠ [] ∧ lineRange p.1 ≠ none) = true := by
    intro p hp
    obtain ⟨q, hq, rfl⟩ := List.mem_map.mp hp
    have hne : modulesIn q.2 ≠ [] := List.length_pos_iff.mp (by rw [hpaths q hq]; decide)
    simp [hne, q.1.lineRange_text]
  have hlen : (env.paths lines).length = lines.length := by
    rw [← List.length_map Prod.fst, MapsEnv.paths, map_fst_mapped]
  rw [length_allEntries, entryCount, mappedLines_mapsContent h, throughFirst_append hpass,
    List.countP_append, List.countP_eq_length.mpr hcounts, List.length_map, hlen]
  omega

/-- The address with these digits in the middle. -/
def cacheAddress (n : Nat) : List Char := ['7', 'f'] ++ (Nat.toDigits 10 n ++ ['0', '0', '0'])

/-- The addresses in the cache are printed in hexadecimal. -/
theorem cacheAddress_hex (n : Nat) : HexNumber (cacheAddress n) := by
  have hfirst : HexNumber ['7', 'f'] := by decide
  refine hfirst.append (List.forall_mem_append.mpr ⟨fun c hc => ?_, List.all_eq_true.mp rfl⟩)
  exact isSome_hexDigit_of_isDigit (Nat.isDigit_of_mem_toDigits (by decide) (by decide) hc)

/-- It is below $2^{63}$. -/
theorem cacheAddress_lt {n : Nat} (h : n < 10 ^ 5) : hexValue (cacheAddress n) < 2 ^ 63 := by
  have hdigits : (Nat.toDigits 10 n).length ≤ 5 :=
    (Nat.length_toDigits_le_iff (by decide) (by decide)).mpr h
  have hlen : (cacheAddress n).length ≤ 10 := by
    simp only [cacheAddress, List.length_append, List.length_cons, List.length_nil]
    omega
  calc hexValue (cacheAddress n) < 16 ^ (cacheAddress n).length := hexValue_lt _
    _ ≤ 16 ^ 10 := Nat.pow_le_pow_right (by decide) hlen
    _ < 2 ^ 63 := by decide

/-- A page of a file in a directory `/libcache`. -/
def cacheLine (i : Nat) : MapsLine :=
  { libcLine with
    start := cacheAddress (1000 + i % 9000)
    stop := cacheAddress (1001 + i % 9000)
    path := some ['/', 'l', 'i', 'b', 'c', 'a', 'c', 'h', 'e', '/', 'a']
    start_hex := cacheAddress_hex _
    start_lt := cacheAddress_lt (by omega)
    stop_hex := cacheAddress_hex _
    stop_lt := cacheAddress_lt (by omega)
    path_clean := by simp }

/-- **Entries in the table.** The writes stay in the table and the counter does not wrap
exactly when there are at most as many entries as the table has places. -/
theorem writes_below_iff (env : MapsEnv) :
    (tableAfter (populateBlackListAddresses env .init)).Bounded ↔
      entryCount env ≤ maxBlackListAddress := by
  rw [tableAfter_init, recordAll_bounded_iff, length_allEntries]

/-- `1025` such pages are one more than the table has places for. -/
theorem writes_not_below :
    ¬ ∀ env, (tableAfter (populateBlackListAddresses env .init)).Bounded := by
  intro hall
  have hbounded := hall (plainEnv ((List.range 1025).map cacheLine))
  rw [tableAfter_init, recordAll_bounded_iff] at hbounded
  have hmodule : (modulesIn
      ['/', 'l', 'i', 'b', 'c', 'a', 'c', 'h', 'e', '/', 'a']).length = 1 := by decide +kernel
  have hpaths : ∀ (is : List Nat) (tmpname : List Char),
      ∀ p ∈ mapped MapsLine.name (plainEnv ((List.range 1025).map cacheLine)) tmpname
        (is.map cacheLine), (modulesIn p.2).length = 1 := by
    intro is
    induction is with
    | nil =>
        intro _ p hp
        cases hp
    | cons i is ih =>
        intro tmpname p hp
        rcases List.mem_cons.mp hp with rfl | hp
        · exact hmodule
        · exact ih _ p hp
  have hlen := (length_le_allEntries rfl (hpaths (List.range 1025) [])).trans hbounded
  rw [List.length_map, List.length_range] at hlen
  exact absurd hlen (by decide)

end DroidPerf
