import DroidPerf.RecordingsSound
import DroidPerf.ProfilesSound

/-!
# DroidPerf.RecordedFilesSound

The files of a recording, as the converter reads them.

A line of the files for samples or allocations is read back as the call path and the number
that were recorded, and each frame is shown with the class, the name and the line that the VM
gave (`Recording.Good.samples_eq`).

It is a round trip for each kind of file, under what `Recording.Good` says of a recording: the
method file gives a map with the entries of the rows (`Recording.Good.readMethods`), the other
files give back their call paths (`Recording.Good.readTraces`), and with the map a call path
gives the sample of the VM (`Recording.MethodMap.sample`).
-/

namespace DroidPerf

open Text

open DataBuilder

/-! ### Texts

The text of a file is what its pieces print, one after another. -/

/-- A stream of a thread has the pieces that were written to it. -/
theorem written_streamWith (kind : OutputKind) {tid : Nat} (htid : tid < 2 ^ 32)
    (pieces : List Fragment) : (streamWith kind tid pieces).written = pieces := by
  have hkind : byteSize kind.name.toList ≤ 100 := by cases kind <;> decide
  have hall : ∀ (pieces : List Fragment) (o : Output), o.Ready →
      (pieces.foldl Output.writeb o).written = o.written ++ pieces := by
    intro pieces
    induction pieces with
    | nil => exact fun o _ => (List.append_nil _).symm
    | cons data pieces ih =>
        intro o ho
        obtain ⟨hwritten, hready⟩ := Output.writeb_ready ho data
        rw [List.foldl_cons, ih _ hready, hwritten, List.append_assoc, List.singleton_append]
  rw [streamWith, hall pieces _ (newOutput_ready hkind htid), newOutput_written, List.nil_append]

/-- The text of the file of a kind. -/
def Recording.text (r : Recording) (kind : OutputKind) : List Char :=
  (r.pieces kind).flatMap Fragment.print

/-- The file of a thread's stream has the text of the recording. -/
theorem text_streamWith (kind : OutputKind) {tid : Nat} (htid : tid < 2 ^ 32) (r : Recording) :
    (streamWith kind tid (r.pieces kind)).text = r.text kind := by
  rw [Output.text, written_streamWith kind htid]
  rfl

/-! ### Lines

The lines for samples and those for allocations are read by the same function. They differ in
how the number behind the bar was printed. -/

/-- The trace that a line is read as. -/
def pathTrace (path : List (Nat × List Char)) (metric : Nat) : Trace :=
  ⟨path.map fun frame => (decimal (toInt32 frame.1), frame.2), toInt32 metric⟩

/-- The call paths of the samples, each with the metric that the file of a kind has for it. -/
def sampledPaths (samples : List Sampled) : List Sampled :=
  (samples.filter fun sample => sample.1 ≠ []).map fun sample => (collapse sample.1, sample.2)

/-- The call paths and metrics in the file of a kind. -/
def Recording.paths (r : Recording) : OutputKind → List Sampled
  | .method => []
  | .trace => sampledPaths (r.samples.map TakenSample.trace)
  | .alloc => r.allocs.filter fun a => a.1 ≠ []
  | .cachemiss => sampledPaths (r.samples.map TakenSample.cachemiss)

/-- The traces of samples are those of their call paths. -/
theorem sampleTraces_eq (samples : List Sampled) :
    sampleTraces samples = (sampledPaths samples).map fun p => pathTrace p.1 p.2 := by
  rw [sampleTraces, sampledPaths, List.map_map]
  rfl

/-- Small numbers are printed alike in both formats. -/
theorem toInt64_eq_toInt32 {n : Nat} (h : n < 2 ^ 31) : toInt64 n = toInt32 n := by
  unfold toInt64 toInt32
  rw [if_pos (by omega), if_pos (by omega)]
  omega

/-- The pieces of an allocation print its line. -/
theorem print_allocPieces {a : Sampled} (hne : a.1 ≠ []) (hcount : a.2 < 2 ^ 31) :
    (allocPieces a).flatMap Fragment.print = lineText a.1 a.2 ++ ['\n'] := by
  have hframes : (a.1.map framePiece).flatMap Fragment.print = pathText a.1 ++ [' '] := by
    rw [pathText, ← flatMap_append_singleton ' ' (by simpa using hne), List.flatMap_map,
      List.flatMap_map]
    simp only [print_framePiece]
  rw [allocPieces, if_neg hne, List.flatMap_append, hframes]
  simp [Fragment.print, lineText, toInt64_eq_toInt32 hcount]

/-- The file for allocations is read back. -/
theorem readTraces_allocPieces {allocs : List Sampled}
    (h : ∀ a ∈ allocs, NumericScopes a.1 ∧ a.2 < 2 ^ 31) :
    readTraces ((allocs.flatMap allocPieces).flatMap Fragment.print) =
      some ((allocs.filter fun a => a.1 ≠ []).map fun p => pathTrace p.1 p.2) := by
  -- no line end but those of the lines
  have hreturn : '\r' ∉ (allocs.flatMap allocPieces).flatMap Fragment.print := by
    rw [List.flatMap_assoc]
    intro hmem
    obtain ⟨a, ha, hmem⟩ := List.mem_flatMap.mp hmem
    obtain ⟨hscopes, hcount⟩ := h a ha
    by_cases hne : a.1 = []
    · simp [allocPieces, hne] at hmem
    · rw [print_allocPieces hne hcount, List.mem_append] at hmem
      rcases hmem with hmem | hmem
      · exact notMem_lineText hscopes (by decide) (by decide) (by decide) (by decide) (by decide)
          a.2 hmem
      · exact absurd hmem (by decide)
  rw [readTraces, readLines, universalNewlines_of_notMem hreturn]
  clear hreturn
  induction allocs with
  | nil => rfl
  | cons a allocs ih =>
      obtain ⟨⟨hscopes, hcount⟩, hrest⟩ := List.forall_mem_cons.mp h
      rw [List.flatMap_cons, List.flatMap_append]
      by_cases hne : a.1 = []
      · -- nothing was called but `Class.getName`: there is no line
        rw [List.filter_cons_of_neg (by simpa using hne), allocPieces, if_pos hne]
        exact ih hrest
      · rw [print_allocPieces hne hcount, List.append_assoc, List.singleton_append,
          readTraceLines_append hne hscopes, ih hrest, List.filter_cons_of_pos (by simpa using hne)]
        rfl

variable {vm : VmMethods} {r : Recording}

/-- The scopes of a recorded path are numbers. -/
theorem OnRows.numericScopes {rows : List MethodRow} {path : List (Nat × List Char)}
    (h : OnRows rows path) : NumericScopes path := fun frame hframe => (h frame hframe).2.numeric

/-- The files of a recording are read back. -/
theorem Recording.Good.readTraces (h : r.Good vm) {kind : OutputKind} (hkind : kind ≠ .method) :
    DroidPerf.readTraces (r.text kind) =
      some ((r.paths kind).map fun p => pathTrace p.1 p.2) := by
  cases kind with
  | method => exact absurd rfl hkind
  | trace =>
      rw [Recording.paths, ← sampleTraces_eq]
      refine readTraces_samplePieces fun sample hsample => ?_
      obtain ⟨s, hs, rfl⟩ := List.mem_map.mp hsample
      exact (h.samples s hs).1.numericScopes
  | cachemiss =>
      rw [Recording.paths, ← sampleTraces_eq]
      refine readTraces_samplePieces fun sample hsample => ?_
      obtain ⟨s, hs, rfl⟩ := List.mem_map.mp hsample
      exact (h.samples s hs).1.numericScopes
  | alloc =>
      refine readTraces_allocPieces fun a ha => ?_
      obtain ⟨hframes, hcount⟩ := h.allocs a ha
      exact ⟨fun frame hframe => (hframes frame hframe).2.numeric, hcount⟩

/-- What `readTraces` tells about the lines. -/
theorem traceOf_readTraceLines {lines : List (List Char)} {traces : List Trace}
    (h : readTraceLines lines = some traces) : lines.filterMap traceOf = traces ∧
      ∀ line ∈ lines, " |".toList <:+: line → ∃ trace, readTrace line = some trace := by
  induction lines generalizing traces with
  | nil =>
      cases h
      exact ⟨rfl, nofun⟩
  | cons line lines ih =>
      unfold readTraceLines at h
      split at h
      · rename_i hmetric
        simp only [Option.bind_eq_bind, Option.bind_eq_some_iff, Option.pure_def,
          Option.some.injEq] at h
        obtain ⟨trace, htrace, traces', htraces, rfl⟩ := h
        obtain ⟨hlines, hread⟩ := ih htraces
        have hof : traceOf line = some trace := by rw [traceOf, if_pos hmetric, htrace]
        refine ⟨by rw [List.filterMap_cons_some hof, hlines], ?_⟩
        exact List.forall_mem_cons.mpr ⟨fun _ => ⟨trace, htrace⟩, hread⟩
      · rename_i hmetric
        obtain ⟨hlines, hread⟩ := ih h
        have hof : traceOf line = none := by rw [traceOf, if_neg hmetric]
        refine ⟨by rw [List.filterMap_cons_none hof, hlines], ?_⟩
        exact List.forall_mem_cons.mpr ⟨fun hin => absurd hin hmetric, hread⟩

/-! ### Methods

The class of a row has the live objects of its time in front. The converter cuts it off, which
leaves what the VM said. -/

/-- What the profile has about a method, without object prefixes. -/
def VmMethods.info (vm : VmMethods) (m : Nat) : MethodInfo :=
  ⟨className (vm.signature m) ++ (".java".toList ++ '.' :: vm.name m),
    className (vm.signature m) ++ (".java".toList ++ ['\n'])⟩

/-- The entry that is read from a row has the names of the VM, once it is cut. -/
theorem VmMethods.Row.cut_info {row : MethodRow} (h : vm.Row row) :
    row.info.cut = vm.info row.method := by
  obtain ⟨info, hinfo, hclass⟩ := h.classText
  have hname := (vm.names _ h.method).2
  have hsignature : ']' ∉ className (vm.signature row.method) := by
    intro hmem
    rcases mem_className hmem with hdot | hmem
    · exact absurd hdot (by decide)
    · exact (vm.signatures _ h.method).2 hmem
  have hstrip : rstrip row.className = row.className := by
    have hlast : row.className =
        (info ++ (className (vm.signature row.method) ++ ".jav".toList)) ++ ['a'] := by
      rw [hclass]
      simp
    rw [hlast, rstrip, List.rdropWhile_concat_neg _ _ _ (by decide)]
  have hpath : ']' ∉ className (vm.signature row.method) ++ (".java".toList ++ ['\n']) := by
    simpa using hsignature
  have hfull : ']' ∉ className (vm.signature row.method) ++ (".java".toList ++ '.' :: row.name) := by
    rw [h.name]
    simp [hsignature, hname]
  -- the text of the live objects ends with a bracket, behind which the class begins
  rw [MethodRow.info, MethodInfo.cut, hstrip, hclass, VmMethods.info, ← h.name]
  simp only [List.append_assoc]
  rw [hinfo.strips _ hfull, hinfo.strips _ hpath]

/-- The method map that is read from the method file of a recording. -/
structure Recording.MethodMap (vm : VmMethods) (r : Recording)
    (methodMap : Int → Option MethodInfo) : Prop where
  rows : ∀ m ∈ r.rows.map MethodRow.method,
    (methodMap (toInt32 m)).map MethodInfo.cut = some (vm.info m)
  others : ∀ m ∈ vm.methods, m ∉ r.rows.map MethodRow.method → methodMap (toInt32 m) = none

/-- The method file of a recording is read back. -/
theorem Recording.Good.readMethods (h : r.Good vm) :
    ∃ methodMap, DroidPerf.readMethods (r.text .method) = some methodMap ∧
      r.MethodMap vm methodMap := by
  have htext : r.text .method = rowsText r.rows := by
    rw [Recording.text, Recording.pieces, List.flatMap_map]
    rfl
  have hwords : ∀ row ∈ r.rows, (' ' ∉ row.name ∧ OneLine row.name) ∧
      ' ' ∉ row.className ∧ OneLine row.className := by
    intro row hrow
    have hvm := h.rows row hrow
    obtain ⟨info, hinfo, hclass⟩ := hvm.classText
    have hname := (vm.names _ hvm.method).1
    have hjava : OneWord ".java".toList := by decide
    have hword : OneWord row.className := by
      rw [hclass]
      exact hinfo.oneWord.append ((oneWord_className (vm.signatures _ hvm.method).1).append hjava)
    rw [hvm.name]
    exact ⟨⟨hname.blank_notMem, hname.oneLine⟩, hword.blank_notMem, hword.oneLine⟩
  -- ids of the VM are printed differently, so each row keeps its entry
  have hids : (r.rows.map fun row => toInt32 row.method).Nodup := by
    have hmap : (r.rows.map fun row => toInt32 row.method) =
        (r.rows.map MethodRow.method).map toInt32 := by rw [List.map_map]; rfl
    rw [hmap]
    refine (List.nodup_map_iff_inj_on h.nodup).mpr fun m hm m' hm' heq => ?_
    obtain ⟨row, hrow, rfl⟩ := List.mem_map.mp hm
    obtain ⟨row', hrow', rfl⟩ := List.mem_map.mp hm'
    exact vm.printed _ (h.rows row hrow).method _ (h.rows row' hrow').method heq
  obtain ⟨methodMap, hread, hrows, hothers⟩ := readMethods_rowsText hwords hids
  refine ⟨methodMap, htext ▸ hread, fun m hm => ?_, fun m hm hnot => ?_⟩
  · obtain ⟨row, hrow, rfl⟩ := List.mem_map.mp hm
    rw [hrows row hrow, Option.map_some, (h.rows row hrow).cut_info]
  · rw [hothers (toInt32 m) fun row hrow heq => ?_, vm.notBuiltin m hm]
    exact hnot (vm.printed m hm _ (h.rows row hrow).method heq ▸ List.mem_map_of_mem hrow)

/-! ### Samples

From a line to the sample that it gives with the method map of its thread. -/

/-- What a frame is shown as. -/
def VmMethods.shown (vm : VmMethods) (frame : Nat × List Char) : Shown :=
  ((vm.info frame.1).filePath, (vm.info frame.1).name, (readInt frame.2).getD 0)

/-- The sample for a call path and a metric. -/
def VmMethods.sample (vm : VmMethods) (p : Sampled) : List Shown × List MetricMsg :=
  (p.1.map vm.shown, [⟨0, p.2, []⟩])

/-- All methods of a call path have rows. -/
def Recording.knows (r : Recording) (p : Sampled) : Bool :=
  p.1.all fun frame => frame.1 ∈ r.rows.map MethodRow.method

/-- A call path and a metric that can be shown. -/
structure VmMethods.Path (vm : VmMethods) (p : Sampled) : Prop where
  frames : ∀ frame ∈ p.1, frame.1 ∈ vm.methods ∧ LineScope frame.2
  metric : p.2 < 2 ^ 31

/-- The call paths of the samples can be shown, and their methods have rows. -/
theorem Recording.Good.sampledPaths (h : r.Good vm) {samples : List Sampled} {p : Sampled}
    (hsamples : ∀ s ∈ samples, OnRows r.rows s.1 ∧ s.2 < 2 ^ 31)
    (hp : p ∈ DroidPerf.sampledPaths samples) : vm.Path p ∧ r.knows p = true := by
  obtain ⟨s, hs, rfl⟩ := List.mem_map.mp hp
  obtain ⟨hrows, hmetric⟩ := hsamples s (List.mem_of_mem_filter hs)
  have hsub := (List.destutter_sublist (fun a b : Nat × List Char => a.1 ≠ b.1) s.1).subset
  refine ⟨⟨fun frame hframe => ?_, hmetric⟩, List.all_eq_true.mpr fun frame hframe => ?_⟩
  · obtain ⟨hmem, hscope⟩ := hrows frame (hsub hframe)
    obtain ⟨row, hrow, heq⟩ := List.mem_map.mp hmem
    exact ⟨heq ▸ (h.rows row hrow).method, hscope⟩
  · exact decide_eq_true (hrows frame (hsub hframe)).1

/-- The call paths in a file of any kind can be shown; those of samples have rows for all their
methods. -/
theorem Recording.Good.path (h : r.Good vm) {kind : OutputKind} {p : Sampled}
    (hp : p ∈ r.paths kind) : vm.Path p ∧ (kind ≠ .alloc → r.knows p = true) := by
  cases kind with
  | method => cases hp
  | trace =>
      obtain ⟨hpath, hknows⟩ := h.sampledPaths (fun s hs => by
        obtain ⟨sample, hsample, rfl⟩ := List.mem_map.mp hs
        exact h.samples sample hsample) hp
      exact ⟨hpath, fun _ => hknows⟩
  | alloc =>
      obtain ⟨hframes, hcount⟩ := h.allocs p (List.mem_of_mem_filter hp)
      exact ⟨⟨hframes, hcount⟩, fun hne => absurd rfl hne⟩
  | cachemiss =>
      obtain ⟨hpath, hknows⟩ := h.sampledPaths (fun s hs => by
        obtain ⟨sample, hsample, rfl⟩ := List.mem_map.mp hs
        exact ⟨(h.samples sample hsample).1, (by decide : cachemissThreshold < 2 ^ 31)⟩) hp
      exact ⟨hpath, fun _ => hknows⟩

section Line

variable {methodMap : Int → Option MethodInfo} {p : Sampled}

/-- The line for a call path and a metric. -/
def pathLine (methodMap : Int → Option MethodInfo) (p : Sampled) : TraceLine :=
  ⟨methodMap, pathTrace p.1 p.2⟩

/-- A line scope is read as a number. -/
theorem LineScope.readInt {scope : List Char} (h : LineScope scope) :
    ∃ i, Text.readInt scope = some i ∧ fitsInt64 i = true := by
  obtain ⟨i, hpos, hlt, rfl⟩ := h
  refine ⟨i, ?_, by simp only [fitsInt64, decide_eq_true_eq]; omega⟩
  rw [← List.append_nil (decimal i)]
  exact readInt_decimal i (by decide)

/-- The line of a path can be read. -/
theorem VmMethods.Path.reads (h : vm.Path p) : (pathLine methodMap p).Reads := by
  refine ⟨fun frame hframe => ?_, ?_⟩
  · obtain ⟨source, hsource, rfl⟩ := List.mem_map.mp hframe
    obtain ⟨i, hi, hfits⟩ := (h.frames source hsource).2.readInt
    exact ⟨toInt32 source.1, i, readInt_toInt32 source.1, hi, hfits⟩
  · have hmetric := h.metric
    show fitsUint64 (toInt32 p.2) = true
    rw [toInt32_of_lt hmetric]
    simp only [fitsUint64, decide_eq_true_eq]
    omega

/-- The methods of a line are known if they have rows. -/
theorem Recording.MethodMap.known (hmap : r.MethodMap vm methodMap) (h : vm.Path p) :
    (pathLine methodMap p).known = r.knows p := by
  unfold TraceLine.known Recording.knows pathLine pathTrace
  rw [List.all_map, Bool.eq_iff_iff, List.all_eq_true, List.all_eq_true]
  refine forall₂_congr fun frame hframe => ?_
  simp only [Function.comp_apply, knownFrame, readInt_toInt32, Option.bind_some]
  by_cases hmem : frame.1 ∈ r.rows.map MethodRow.method
  · obtain ⟨info, hinfo, -⟩ := Option.map_eq_some_iff.mp (hmap.rows _ hmem)
    rw [hinfo, decide_eq_true hmem, Option.isSome_some]
  · rw [hmap.others _ (h.frames frame hframe).1 hmem, decide_eq_false hmem, Option.isSome_none]

/-- A list that is made by its positions. -/
theorem mapM_range_eq_some {A : Type} {f : Nat → Option A} {l : List A}
    (h : ∀ (i : Nat) a, l[i]? = some a → f i = some a) : (List.range l.length).mapM f = some l := by
  refine Builder.mapM_eq_some (List.forall₂_iff_get.mpr ⟨by simp, fun i hi hi' => ?_⟩)
  simpa using h i _ (List.getElem?_eq_getElem hi')

/-- A line of which all methods are known gives the sample of the VM. -/
theorem Recording.MethodMap.sample (hmap : r.MethodMap vm methodMap) (h : vm.Path p)
    (hknows : r.knows p = true) : (pathLine methodMap p).sample = some (vm.sample p) := by
  have hpath : (pathLine methodMap p).path = some (p.1.map vm.shown) := by
    have hlen : (pathLine methodMap p).trace.t.length = (p.1.map vm.shown).length := by
      simp [pathLine, pathTrace]
    rw [TraceLine.path, hlen]
    refine mapM_range_eq_some fun i shown hshown => ?_
    rw [List.getElem?_map] at hshown
    obtain ⟨frame, hframe, rfl⟩ := Option.map_eq_some_iff.mp hshown
    have hmem := List.mem_of_getElem? hframe
    obtain ⟨lineNo, hlineNo, -⟩ := (h.frames frame hmem).2.readInt
    obtain ⟨info, hinfo, hcut⟩ := Option.map_eq_some_iff.mp
      (hmap.rows frame.1 (by simpa using List.all_eq_true.mp hknows frame hmem))
    rw [frameShown_false]
    simp [pathLine, pathTrace, hframe, hlineNo, hinfo, hcut, readInt_toInt32, VmMethods.shown]
  rw [TraceLine.sample, hpath]
  simp [pathLine, pathTrace, VmMethods.sample, toInt32_of_lt h.metric]

end Line

/-! ### The files of a recording

A thread without a method file is passed over by the converter. It has no samples then, but may
have allocations. -/

/-- What a section reads for a recording, which is nothing without a method file. -/
def Recording.files (r : Recording) (kind : OutputKind) : Option ThreadFiles :=
  if r.text .method = [] then none
  else some ⟨readLines (r.text .method), readLines (r.text kind)⟩

/-- The lines that a section reads for a recording. -/
def Recording.lines (r : Recording) (kind : OutputKind) : List TraceLine :=
  (r.files kind).toList.flatMap ThreadFiles.lines

/-- The samples of a recording that a section keeps. -/
def Recording.shown (vm : VmMethods) (r : Recording) (kind : OutputKind) :
    List (List Shown × List MetricMsg) :=
  ((r.paths kind).filter r.knows).map vm.sample

/-- No recorded path in a file is empty. -/
theorem Recording.paths_ne_nil {kind : OutputKind} {p : Sampled} (hp : p ∈ r.paths kind) :
    p.1 ≠ [] := by
  have hsampled : ∀ {samples : List Sampled}, p ∈ DroidPerf.sampledPaths samples → p.1 ≠ [] := by
    intro samples hp
    obtain ⟨s, hs, rfl⟩ := List.mem_map.mp hp
    have hne := (List.mem_filter.mp hs).2
    simpa [collapse, List.destutter_eq_nil] using hne
  cases kind with
  | method => cases hp
  | trace => exact hsampled hp
  | alloc => simpa using (List.mem_filter.mp hp).2
  | cachemiss => exact hsampled hp

/-- The method file is empty if there are no rows. -/
theorem Recording.text_method_eq_nil_iff : r.text .method = [] ↔ r.rows = [] := by
  constructor
  · intro htext
    by_contra hne
    obtain ⟨row, rows, hrows⟩ := List.exists_cons_of_ne_nil hne
    simp [Recording.text, Recording.pieces, hrows, Fragment.print] at htext
  · intro hrows
    rw [Recording.text, Recording.pieces, hrows]
    rfl

/-- Samples with empty paths are not written. -/
theorem samplePieces_eq_nil {samples : List Sampled} (h : ∀ s ∈ samples, s.1 = []) :
    samplePieces samples = [] :=
  List.flatMap_eq_nil_iff.mpr fun s hs => if_pos (h s hs)

/-- Without a method there are no samples that are written. -/
theorem Recording.Good.text_eq_nil (h : r.Good vm) (hrows : r.rows = []) {kind : OutputKind}
    (hkind : kind ≠ .alloc) : r.text kind = [] := by
  have hpath : ∀ s ∈ r.samples, s.callpathVec = [] := by
    intro s hs
    obtain ⟨hpath, -⟩ := h.samples s hs
    rw [hrows] at hpath
    exact List.eq_nil_iff_forall_not_mem.mpr fun frame hframe =>
      List.not_mem_nil (hpath frame hframe).1
  cases kind with
  | method => exact Recording.text_method_eq_nil_iff.mpr hrows
  | trace =>
      rw [Recording.text, Recording.pieces,
        samplePieces_eq_nil (by simpa [TakenSample.trace] using hpath)]
      rfl
  | alloc => exact absurd rfl hkind
  | cachemiss =>
      rw [Recording.text, Recording.pieces,
        samplePieces_eq_nil (by simpa [TakenSample.cachemiss] using hpath)]
      rfl

section Files

variable {kind : OutputKind}

/-- What a section reads for a recording with a method file. -/
theorem Recording.Good.files (h : r.Good vm) (hkind : kind ≠ .method) {f : ThreadFiles}
    (hf : r.files kind = some f) : ∃ methodMap, f.methodMap = some methodMap ∧
      r.MethodMap vm methodMap ∧ f.lines = (r.paths kind).map (pathLine methodMap) ∧
      ∀ line ∈ f.trace, " |".toList <:+: line → ∃ trace, readTrace line = some trace := by
  obtain ⟨methodMap, hread, hmap⟩ := h.readMethods
  obtain ⟨htraces, hlines⟩ := traceOf_readTraceLines (h.readTraces hkind)
  unfold Recording.files at hf
  split at hf
  · cases hf
  · cases hf
    have hmethodMap : ThreadFiles.methodMap
        ⟨readLines (r.text .method), readLines (r.text kind)⟩ = some methodMap := hread
    refine ⟨methodMap, hmethodMap, hmap, ?_, hlines⟩
    rw [ThreadFiles.lines, hmethodMap, Option.toList_some, List.flatMap_singleton, htraces,
      List.map_map]
    rfl

/-- The lines of a recording are those of its call paths. -/
theorem Recording.Good.lines (h : r.Good vm) (hkind : kind ≠ .method) : r.lines kind = [] ∨
    ∃ methodMap, r.MethodMap vm methodMap ∧
      r.lines kind = (r.paths kind).map (pathLine methodMap) := by
  unfold Recording.lines
  cases hf : r.files kind with
  | none => exact .inl rfl
  | some f =>
      obtain ⟨methodMap, -, hmap, hlines, -⟩ := h.files hkind hf
      exact .inr ⟨methodMap, hmap, by rw [Option.toList_some, List.flatMap_singleton, hlines]⟩

/-- A file without text has no lines. -/
theorem Recording.Good.lines_eq_nil (h : r.Good vm) (hkind : kind ≠ .method)
    (htext : r.text kind = []) : r.lines kind = [] := by
  have hread := h.readTraces hkind
  rw [htext] at hread
  have hpaths : (r.paths kind).map (fun p => pathTrace p.1 p.2) = [] :=
    (Option.some.inj hread).symm
  obtain hnil | ⟨methodMap, -, hlines⟩ := h.lines hkind
  · exact hnil
  · rw [hlines, List.map_eq_nil_iff.mp hpaths, List.map_nil]

/-- Without a method file nothing is shown. -/
theorem Recording.shown_eq_nil (hfiles : r.files kind = none) : r.shown vm kind = [] := by
  have hrows : r.rows = [] := by
    rw [← Recording.text_method_eq_nil_iff]
    by_contra hne
    simp [Recording.files, hne] at hfiles
  rw [Recording.shown, List.map_eq_nil_iff, List.filter_eq_nil_iff]
  intro p hp hknows
  obtain ⟨frame, rest, hframes⟩ := List.exists_cons_of_ne_nil (Recording.paths_ne_nil hp)
  simp [Recording.knows, hframes, hrows] at hknows

/-- The lines of which all methods are known give the samples of the recording. -/
theorem Recording.Good.samples_eq (h : r.Good vm) (hkind : kind ≠ .method) :
    ((r.lines kind).filter TraceLine.known).mapM TraceLine.sample = some (r.shown vm kind) := by
  cases hf : r.files kind with
  | none =>
      rw [Recording.lines, hf, Recording.shown_eq_nil hf]
      rfl
  | some f =>
      obtain ⟨methodMap, -, hmap, hlines, -⟩ := h.files hkind hf
      -- the lines that are kept are those of the paths that are kept
      have hfilter : ((r.paths kind).map (pathLine methodMap)).filter TraceLine.known =
          ((r.paths kind).filter r.knows).map (pathLine methodMap) := by
        rw [List.filter_map]
        refine congrArg _ (List.filter_congr fun p hp => ?_)
        exact hmap.known (h.path hp).1
      rw [Recording.lines, hf, Option.toList_some, List.flatMap_singleton, hlines, hfilter,
        Recording.shown]
      refine Builder.mapM_eq_some ?_
      rw [List.forall₂_map_left_iff, List.forall₂_map_right_iff, List.forall₂_same]
      intro p hp
      obtain ⟨hmem, hknows⟩ := List.mem_filter.mp hp
      exact hmap.sample (h.path hmem).1 hknows

/-- All lines of the files for samples are known. -/
theorem Recording.Good.lines_known (h : r.Good vm) (hkind : kind ≠ .method) (halloc : kind ≠ .alloc)
    {line : TraceLine} (hline : line ∈ r.lines kind) : line.known = true := by
  obtain hnil | ⟨methodMap, hmap, hlines⟩ := h.lines hkind
  · rw [hnil] at hline
    cases hline
  · rw [hlines] at hline
    obtain ⟨p, hp, rfl⟩ := List.mem_map.mp hline
    obtain ⟨hpath, hknows⟩ := h.path hp
    rw [hmap.known hpath, hknows halloc]

/-- All samples are shown, if not all allocations. -/
theorem Recording.Good.shown_eq (h : r.Good vm) (halloc : kind ≠ .alloc) :
    r.shown vm kind = (r.paths kind).map vm.sample := by
  rw [Recording.shown, List.filter_eq_self.mpr fun p hp => (h.path hp).2 halloc]

/-- Every line that is read for a recording has numbers that can be stored. -/
theorem Recording.Good.lines_reads (h : r.Good vm) (hkind : kind ≠ .method) {line : TraceLine}
    (hline : line ∈ r.lines kind) : line.Reads := by
  obtain hnil | ⟨methodMap, hmap, hlines⟩ := h.lines hkind
  · rw [hnil] at hline
    cases hline
  · rw [hlines] at hline
    obtain ⟨p, hp, rfl⟩ := List.mem_map.mp hline
    exact (h.path hp).1.reads

end Files

/-! ### Lines of several recordings

Lines of different threads meet in one profile. They mean the same methods, those of the VM. -/

/-- A line whose frames mean what the VM has for them. -/
def VmMethods.Tells (vm : VmMethods) (line : TraceLine) : Prop :=
  ∀ frame ∈ line.trace.t, ∃ m ∈ vm.methods, frame.1 = decimal (toInt32 m) ∧
    (line.methodMap (toInt32 m)).map MethodInfo.cut = some (vm.info m)

/-- A line of a recording means the methods of the VM. -/
theorem Recording.Good.tells (h : r.Good vm) {kind : OutputKind} (hkind : kind ≠ .method)
    {line : TraceLine} (hline : line ∈ r.lines kind) (hknown : line.known = true) :
    vm.Tells line := by
  obtain hnil | ⟨methodMap, hmap, hlines⟩ := h.lines hkind
  · rw [hnil] at hline
    cases hline
  · rw [hlines] at hline
    obtain ⟨p, hp, rfl⟩ := List.mem_map.mp hline
    have hpath := (h.path hp).1
    rw [hmap.known hpath] at hknown
    intro frame hframe
    obtain ⟨source, hsource, rfl⟩ := List.mem_map.mp hframe
    have hrow : source.1 ∈ r.rows.map MethodRow.method := by
      simpa using List.all_eq_true.mp hknown source hsource
    exact ⟨source.1, (hpath.frames source hsource).1, rfl, hmap.rows _ hrow⟩

/-- Lines whose frames mean what the VM has for them agree. -/
theorem VmMethods.agree {lines : List TraceLine} (h : ∀ line ∈ lines, vm.Tells line) :
    Agree lines := by
  intro line hline line' hline' frame hframe hframe'
  obtain ⟨m, hm, hid, hinfo⟩ := h line hline frame hframe
  obtain ⟨m', hm', hid', hinfo'⟩ := h line' hline' frame hframe'
  have hsame : m = m' :=
    vm.printed m hm m' hm' (decimal_injective (hid.symm.trans hid'))
  rw [hid, readInt_toInt32, Option.bind_some, Option.bind_some, hinfo, hsame, hinfo']

end DroidPerf
