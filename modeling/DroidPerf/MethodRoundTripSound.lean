import DroidPerf.PrintedSound

/-!
# DroidPerf.MethodRoundTripSound

The method file, written and read.

`MethodEntry` ends each line with the class string and a line end. The converter strips the
line end for the name of the method, and keeps it in `file_path` (`readMethods_rowsText`), so
that no line is read back as it was written (`roundTrips_iff`).

For names without spaces or line ends the entries could be computed, but `roundTrips_iff`
allows a carriage return in a name, which breaks the line for the converter. There the argument
is about the lines that are read, whatever they are: each has at most two spaces and ends in a
line end, so a third token always ends in one (`EndsInToken.newline_mem`), and every path that
is read holds it (`PathsMarked`).
-/

namespace DroidPerf

open Text

/-- What `MethodEntry` writes about a method. -/
structure MethodRow where
  method : Nat
  name : List Char
  className : List Char
  deriving DecidableEq, Repr

namespace MethodRow

/-- The line of a method. -/
def line (r : MethodRow) : List Char := (Fragment.methodLine r.method r.name r.className).print

/-- The entry that the converter makes of the line. -/
def info (r : MethodRow) : MethodInfo :=
  ⟨rstrip r.className ++ '.' :: r.name, r.className ++ ['\n']⟩

end MethodRow

/-- The method file. -/
def rowsText (rows : List MethodRow) : List Char := rows.flatMap MethodRow.line

/-- Text without a space or a line end. -/
def Token (s : List Char) : Prop := ' ' ∉ s ∧ '\n' ∉ s

instance (s : List Char) : Decidable (Token s) := inferInstanceAs (Decidable (_ ∧ _))

/-- Every row is read back as it was written, and there is nothing else beside the built-in
entries. -/
def RoundTrips (rows : List MethodRow) : Prop :=
  ∃ methodMap, readMethods (rowsText rows) = some methodMap ∧
    (∀ r ∈ rows, methodMap (toInt32 r.method) =
      some ⟨r.className ++ '.' :: r.name, r.className⟩) ∧
    ∀ mid, methodMap mid ≠ none → mid = -1 ∨ mid = 0 ∨ ∃ r ∈ rows, mid = toInt32 r.method

/-! ### What is read

For names without a space or a line end the lines read are those that were written. -/

/-- A line end is stripped with the rest of the white space. -/
theorem rstrip_append_newline (s : List Char) : rstrip (s ++ ['\n']) = rstrip s := by
  unfold rstrip
  rw [List.rdropWhile_concat_pos]
  decide

/-- The line of a row gives the entry of the row. -/
theorem addMethod_row {r : MethodRow} (hname : ' ' ∉ r.name) (hclass : ' ' ∉ r.className)
    (methodMap : Int → Option MethodInfo) :
    addMethod methodMap r.line =
      some (Function.update methodMap (toInt32 r.method) (some r.info)) := by
  have hid : ' ' ∉ decimal (toInt32 r.method) := (numeric_decimal _).notMem (by decide) (by decide)
  have hlast : ' ' ∉ r.className ++ ['\n'] := by simpa using hclass
  unfold addMethod MethodRow.line Fragment.print
  dsimp only
  rw [List.splitOn_append_cons_self_of_not_mem hid, List.splitOn_append_cons_self_of_not_mem hname,
    List.splitOn_eq_singleton hlast]
  dsimp only
  rw [readInt_toInt32, rstrip_append_newline]
  rfl

/-- The map after the rows. -/
def rowsMap (rows : List MethodRow) (methodMap : Int → Option MethodInfo) :
    Int → Option MethodInfo :=
  rows.foldl (fun methodMap r => Function.update methodMap (toInt32 r.method) (some r.info))
    methodMap

/-- A method without a row has the entry it had before. -/
theorem rowsMap_of_notMem {rows : List MethodRow} {mid : Int}
    (h : ∀ r ∈ rows, mid ≠ toInt32 r.method) (methodMap : Int → Option MethodInfo) :
    rowsMap rows methodMap mid = methodMap mid := by
  induction rows generalizing methodMap with
  | nil => rfl
  | cons r rows ih =>
      obtain ⟨hr, hrest⟩ := List.forall_mem_cons.mp h
      exact (ih hrest _).trans (Function.update_of_ne hr _ _)

/-- A method with a row has that of the row, if the ids are read as different numbers. -/
theorem rowsMap_of_mem {rows : List MethodRow}
    (hids : (rows.map fun r => toInt32 r.method).Nodup) {r : MethodRow} (hr : r ∈ rows)
    (methodMap : Int → Option MethodInfo) :
    rowsMap rows methodMap (toInt32 r.method) = some r.info := by
  induction rows generalizing methodMap with
  | nil => cases hr
  | cons r' rows ih =>
      rw [List.map_cons, List.nodup_cons] at hids
      rcases List.mem_cons.mp hr with rfl | hr
      · have hother : ∀ r' ∈ rows, toInt32 r.method ≠ toInt32 r'.method :=
          fun r' hr' heq => hids.1 (heq ▸ List.mem_map_of_mem hr')
        exact (rowsMap_of_notMem hother _).trans (Function.update_self _ _ _)
      · exact ih hids.2 hr _

/-- The lines of the rows give the entries of the rows, one after another. -/
theorem foldlM_addMethod_rows {rows : List MethodRow}
    (h : ∀ r ∈ rows, (' ' ∉ r.name ∧ OneLine r.name) ∧ ' ' ∉ r.className ∧ OneLine r.className)
    (methodMap : Int → Option MethodInfo) :
    (lines (rowsText rows)).foldlM addMethod methodMap = some (rowsMap rows methodMap) := by
  induction rows generalizing methodMap with
  | nil => rfl
  | cons r rows ih =>
      obtain ⟨⟨⟨hname, hnameLine⟩, hclass, hclassLine⟩, hrest⟩ := List.forall_mem_cons.mp h
      have hline := oneLine_methodText r.method hnameLine hclassLine
      rw [rowsText, List.flatMap_cons, MethodRow.line, print_methodLine, List.append_assoc,
        List.singleton_append, lines_append fun hmem => (hline _ hmem).1 rfl, List.foldlM_cons,
        ← print_methodLine, ← MethodRow.line, addMethod_row hname hclass]
      exact ih hrest _

/-- For methods whose ids are printed differently, the converter has the class string with
the line end as the path of the file, and the right name up to white space at the end of
the class string. -/
theorem readMethods_rowsText {rows : List MethodRow}
    (h : ∀ r ∈ rows, (' ' ∉ r.name ∧ OneLine r.name) ∧ ' ' ∉ r.className ∧ OneLine r.className)
    (hids : (rows.map fun r => toInt32 r.method).Nodup) :
    ∃ methodMap, readMethods (rowsText rows) = some methodMap ∧
      (∀ r ∈ rows, methodMap (toInt32 r.method) = some r.info) ∧
      ∀ mid, (∀ r ∈ rows, mid ≠ toInt32 r.method) → methodMap mid = builtinMethods mid := by
  have hreturn : '\r' ∉ rowsText rows := by
    intro hmem
    obtain ⟨r, hr, hmem⟩ := List.mem_flatMap.mp hmem
    obtain ⟨⟨-, hname⟩, -, hclass⟩ := h r hr
    rw [MethodRow.line, print_methodLine, List.mem_append] at hmem
    rcases hmem with hmem | hmem
    · exact (oneLine_methodText r.method hname hclass _ hmem).2 rfl
    · exact absurd hmem (by decide)
  refine ⟨rowsMap rows builtinMethods, ?_, fun r hr => rowsMap_of_mem hids hr _,
    fun mid hmid => rowsMap_of_notMem hmid _⟩
  rw [readMethods, readLines, universalNewlines_of_notMem hreturn]
  exact foldlM_addMethod_rows h builtinMethods

/-! ### Line ends in paths

A name may hold a carriage return, which is a line end for the converter, so the lines that
it reads need not be those that were written. They all end in a line end, and none has more
than the two spaces of a written line. -/

/-- A line that leaves its end in the third token, if it has one. -/
def EndsInToken (line : List Char) : Prop := line.getLast? = some '\n' ∧ line.count ' ' ≤ 2

/-- Every path of a file holds a space or a line end. -/
def PathsMarked (methodMap : Int → Option MethodInfo) : Prop :=
  ∀ mid info, methodMap mid = some info → ¬ Token info.filePath

/-- The paths of the built-in entries hold a space. -/
theorem pathsMarked_builtinMethods : PathsMarked builtinMethods := by
  intro mid info hinfo
  unfold builtinMethods at hinfo
  split at hinfo
  · cases hinfo
    decide
  · split at hinfo
    · cases hinfo
      decide
    · cases hinfo

/-- The third token is the end of the line. -/
theorem EndsInToken.newline_mem {line id name filePath : List Char} {rest : List (List Char)}
    (h : EndsInToken line) (hsplit : line.splitOn ' ' = id :: name :: filePath :: rest) :
    '\n' ∈ filePath := by
  obtain ⟨hlast, hcount⟩ := h
  have hline : [' '].intercalate (line.splitOn ' ') = line := List.intercalate_splitOn ' '
  rw [hsplit, List.intercalate_cons_of_ne_nil (List.cons_ne_nil _ _),
    List.intercalate_cons_of_ne_nil (List.cons_ne_nil _ _)] at hline
  cases rest with
  | nil =>
      have hline : (id ++ ' ' :: name) ++ ' ' :: filePath = line := by simpa using hline
      rw [← hline, List.getLast?_append_cons, List.getLast?_cons] at hlast
      cases hpath : filePath.getLast? with
      | none => simp [hpath] at hlast
      | some c =>
          rw [hpath] at hlast
          cases hlast
          exact List.mem_of_getLast? hpath
  | cons next rest =>
      -- four tokens would need three spaces
      rw [List.intercalate_cons_of_ne_nil (List.cons_ne_nil _ _)] at hline
      rw [← hline] at hcount
      simp only [List.count_append, List.count_singleton_self] at hcount
      omega

/-- A line adds an entry whose path has the line end in it. -/
theorem PathsMarked.addMethod {methodMap methodMap' : Int → Option MethodInfo} {line : List Char}
    (h : PathsMarked methodMap) (hline : EndsInToken line)
    (hadd : addMethod methodMap line = some methodMap') : PathsMarked methodMap' := by
  unfold DroidPerf.addMethod at hadd
  split at hadd
  · rename_i id name filePath rest hsplit
    obtain ⟨mid, -, hadd⟩ := Option.bind_eq_some_iff.mp hadd
    cases hadd
    intro mid' info hinfo
    by_cases hmid : mid' = mid
    · rw [hmid, Function.update_self] at hinfo
      cases hinfo
      exact fun htoken => htoken.2 (hline.newline_mem hsplit)
    · rw [Function.update_of_ne hmid] at hinfo
      exact h mid' info hinfo
  · cases hadd
    exact h

/-- A file of such lines adds only such entries. -/
theorem PathsMarked.foldlM {methodMap methodMap' : Int → Option MethodInfo}
    {text : List (List Char)} (h : PathsMarked methodMap) (htext : ∀ line ∈ text, EndsInToken line)
    (hfold : text.foldlM DroidPerf.addMethod methodMap = some methodMap') :
    PathsMarked methodMap' := by
  induction text generalizing methodMap with
  | nil =>
      cases hfold
      exact h
  | cons line text ih =>
      obtain ⟨hline, hrest⟩ := List.forall_mem_cons.mp htext
      rw [List.foldlM_cons] at hfold
      obtain ⟨methodMap₁, hadd, hfold⟩ := Option.bind_eq_some_iff.mp hfold
      exact ih (h.addMethod hline hadd) hrest hfold

/-- A written line has two spaces. -/
theorem count_methodText {r : MethodRow} (hname : Token r.name) (hclass : Token r.className) :
    (methodText r.method r.name r.className).count ' ' = 2 := by
  have hid : ' ' ∉ decimal (toInt32 r.method) := (numeric_decimal _).notMem (by decide) (by decide)
  unfold methodText
  rw [List.count_append, List.count_cons_self, List.count_append, List.count_cons_self,
    List.count_eq_zero.mpr hid, List.count_eq_zero.mpr hname.1, List.count_eq_zero.mpr hclass.1]

/-- The lines that are read of a method file. -/
theorem endsInToken_rowsText {rows : List MethodRow}
    (h : ∀ r ∈ rows, Token r.name ∧ Token r.className) :
    ∀ line ∈ readLines (rowsText rows), EndsInToken line := by
  induction rows with
  | nil => exact fun line hline => nomatch hline
  | cons r rows ih =>
      obtain ⟨⟨hname, hclass⟩, hrest⟩ := List.forall_mem_cons.mp h
      obtain ⟨u, hu⟩ := universalNewlines_append_newline (methodText r.method r.name r.className)
      have hread : readLines (rowsText (r :: rows)) =
          lines (u ++ ['\n']) ++ readLines (rowsText rows) := by
        rw [readLines, rowsText, List.flatMap_cons, MethodRow.line, print_methodLine,
          List.append_assoc, List.singleton_append, hu, lines_append_newline]
        rfl
      -- a carriage return can be read as a line end, but no space is added
      have hcount : (u ++ ['\n']).count ' ' ≤ 2 := by
        have htext : (methodText r.method r.name r.className ++ ['\n']).count ' ' = 2 := by
          rw [List.count_append, count_methodText hname hclass]
          rfl
        have hle := count_universalNewlines_le (c := ' ') (by decide)
          (methodText r.method r.name r.className ++ ['\n'])
        rw [hu [], htext] at hle
        exact hle
      rw [hread, List.forall_mem_append]
      refine ⟨fun line hline => ⟨getLast?_of_mem_lines hline, ?_⟩, ih hrest⟩
      -- a line that is read is part of the text
      have hsub : line.Sublist (u ++ ['\n']) := by
        rw [← flatten_lines (u ++ ['\n'])]
        exact List.sublist_flatten_of_mem hline
      exact (hsub.count_le ' ').trans hcount

/-- A row that is read back as it was written is among none. -/
theorem not_roundTrips_cons {r : MethodRow} {rows : List MethodRow}
    (h : ∀ r' ∈ r :: rows, Token r'.name ∧ Token r'.className) : ¬ RoundTrips (r :: rows) := by
  rintro ⟨methodMap, hread, hrows, -⟩
  have hmarked := pathsMarked_builtinMethods.foldlM (endsInToken_rowsText h) hread
  exact hmarked _ _ (hrows r List.mem_cons_self) (h r List.mem_cons_self).2

/-- **The method file.** It is read back as it was written exactly when nothing was written. -/
theorem roundTrips_iff (rows : List MethodRow)
    (h : ∀ r ∈ rows, Token r.name ∧ Token r.className) : RoundTrips rows ↔ rows = [] := by
  constructor
  · intro htrips
    cases rows with
    | nil => rfl
    | cons r rows => exact absurd htrips (not_roundTrips_cons h)
  · rintro rfl
    refine ⟨builtinMethods, rfl, nofun, fun mid hmid => ?_⟩
    unfold builtinMethods at hmid
    split at hmid
    · exact .inl ‹_›
    · split at hmid
      · exact .inr (.inl ‹_›)
      · exact absurd rfl hmid

/-- The file of the method `f` of `a.B.java`. -/
theorem roundTrips_one_row : RoundTrips [⟨16, "f".toList, "a.B.java".toList⟩] ↔
    [(⟨16, "f".toList, "a.B.java".toList⟩ : MethodRow)] = [] :=
  roundTrips_iff _ (by decide)

/-- Its path is read with a line end. -/
theorem path_keeps_line_end :
    ¬ RoundTrips [⟨16, "f".toList, "a.B.java".toList⟩] :=
  not_roundTrips_cons (by decide)

end DroidPerf
