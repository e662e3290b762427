import DroidPerf.Profiler
import DroidPerf.Converter
import Mathlib.Data.List.Destutter

/-!
# DroidPerf.TraceSound

The trace and cachemiss files: what `constructContext` writes, the converter reads back.

`writeTrace_eq` says which pieces a sample puts into a stream, `readTraceLines_append` that the
converter reads the line they make and goes on behind it; the round trip over all samples
(`constructContext_readTraces`) follows by induction.

A scope is a number, so none of the characters that separate the parts of a line is in one
(`Numeric.notMem`). That is all the parser needs to find the parts again, up to the frames that
were left out because the one before was of the same method (`collapse`).
-/

namespace DroidPerf

open Text

/-! ### What a sample writes

The loop remembers the method of the frame before and passes over frames of the same one. -/

/-- The call path with every run of frames of one method reduced to its first frame. -/
def collapse (callpathVec : List (Nat × List Char)) : List (Nat × List Char) :=
  callpathVec.destutter fun previous next => previous.1 ≠ next.1

/-- The piece for a frame. -/
def framePiece (frame : Nat × List Char) : Fragment := .frame frame.2 frame.1

/-- The pieces a sample puts into a stream. -/
def tracePieces (callpathVec : List (Nat × List Char)) (metric : Nat) : List Fragment :=
  if callpathVec = [] then [] else (collapse callpathVec).map framePiece ++ [.metric metric]

/-- A piece is a frame of the call path, or the metric at the end. -/
theorem mem_tracePieces {callpathVec : List (Nat × List Char)} {metric : Nat} {data : Fragment}
    (h : data ∈ tracePieces callpathVec metric) :
    (∃ frame ∈ callpathVec, data = framePiece frame) ∨ data = .metric metric := by
  unfold tracePieces at h
  split at h
  · cases h
  · rcases List.mem_append.mp h with h | h
    · obtain ⟨frame, hframe, rfl⟩ := List.mem_map.mp h
      exact .inl ⟨frame, (List.destutter_sublist _ _).subset hframe, rfl⟩
    · exact .inr (List.mem_singleton.mp h)

/-- The loop behind a frame that was written. -/
theorem writeCallpath_eq (frame : Nat × List Char) (callpath : List (Nat × List Char))
    (o : Output) :
    (o.writef (framePiece frame) >>= writeCallpath (some frame.1) callpath) =
      o.writeAll ((callpath.destutter' (fun a b => a.1 ≠ b.1) frame).map framePiece) := by
  induction callpath generalizing frame o with
  | nil => rfl
  | cons next callpath ih =>
      -- a frame of the same method is left out
      by_cases hsame : frame.1 = next.1
      · have hskip : writeCallpath (some frame.1) (next :: callpath) =
            writeCallpath (some frame.1) callpath := by
          funext o
          rw [writeCallpath, if_pos (congrArg some hsame), ← hsame]
          rfl
        rw [hskip, ih, List.destutter'_cons_neg (h := not_not.mpr hsame)]
      · have hwrite : writeCallpath (some frame.1) (next :: callpath) = fun o =>
            o.writef (framePiece next) >>= writeCallpath (some next.1) callpath := by
          funext o
          rw [writeCallpath, if_neg fun h => hsame (Option.some.inj h)]
          rfl
        rw [hwrite, List.destutter'_cons_pos (h := hsame), List.map_cons, Output.writeAll_cons]
        exact congrArg _ (funext fun o => ih next o)

/-- A sample writes the frames of its collapsed call path and the metric. -/
theorem writeTrace_eq (callpathVec : List (Nat × List Char)) (metric : Nat) (o : Output) :
    writeTrace callpathVec metric o = o.writeAll (tracePieces callpathVec metric) := by
  cases callpathVec with
  | nil => rfl
  | cons frame callpath =>
      have hpath : writeCallpath none (frame :: callpath) o =
          o.writeAll ((collapse (frame :: callpath)).map framePiece) := by
        rw [collapse, List.destutter_cons', ← writeCallpath_eq, writeCallpath, if_neg (by simp)]
        rfl
      rw [tracePieces, if_neg (List.cons_ne_nil _ _), Output.writeAll_append, ← hpath, writeTrace]
      simp only [Output.writeAll_singleton]
      rfl

/-! ### What the converter reads

From the characters of a line back to its frames. -/

/-- The trace the converter should get from a sample. -/
def sampleTrace (callpathVec : List (Nat × List Char)) (metric : Nat) : Trace :=
  ⟨(collapse callpathVec).map fun frame => (decimal (toInt32 frame.1), frame.2), toInt32 metric⟩

/-- The text of a frame. -/
def frameText (frame : Nat × List Char) : List Char :=
  frame.2 ++ ':' :: decimal (toInt32 frame.1)

/-- The text of the frames. -/
def pathText (frames : List (Nat × List Char)) : List Char :=
  [' '].intercalate (frames.map frameText)

/-- A frame as it is printed, with the space behind it. -/
theorem print_framePiece (frame : Nat × List Char) :
    (framePiece frame).print = frameText frame ++ [' '] := by
  simp [framePiece, Fragment.print, frameText]

/-- The line of a sample, without its end. -/
def lineText (frames : List (Nat × List Char)) (metric : Nat) : List Char :=
  pathText frames ++ ([' '] ++ '|' :: decimal (toInt32 metric))

/-- The pieces of a sample make one line. -/
theorem print_tracePieces {callpathVec : List (Nat × List Char)} (hne : callpathVec ≠ [])
    (metric : Nat) :
    (tracePieces callpathVec metric).flatMap Fragment.print =
      lineText (collapse callpathVec) metric ++ ['\n'] := by
  have hcollapse : (collapse callpathVec).map frameText ≠ [] := by
    simpa [collapse, List.destutter_eq_nil] using hne
  have hframes : ((collapse callpathVec).map framePiece).flatMap Fragment.print =
      pathText (collapse callpathVec) ++ [' '] := by
    rw [pathText, ← flatMap_append_singleton ' ' hcollapse, List.flatMap_map, List.flatMap_map]
    simp only [print_framePiece]
  rw [tracePieces, if_neg hne, List.flatMap_append, hframes]
  simp [Fragment.print, lineText]

section Line

variable {frames : List (Nat × List Char)} {c : Char}

/-- A frame has only the characters of numbers and a colon. -/
theorem notMem_frameText {frame : Nat × List Char} (hscope : Numeric frame.2) (hsign : c ≠ '-')
    (hdigit : c.isDigit = false) (hcolon : c ≠ ':') : c ∉ frameText frame := by
  unfold frameText
  rw [List.mem_append, List.mem_cons, not_or, not_or]
  exact ⟨hscope.notMem hsign hdigit, hcolon, (numeric_decimal _).notMem hsign hdigit⟩

/-- A call path has only these characters and blanks. -/
theorem notMem_pathText (hscopes : ∀ frame ∈ frames, Numeric frame.2) (hsign : c ≠ '-')
    (hdigit : c.isDigit = false) (hcolon : c ≠ ':') (hblank : c ≠ ' ') :
    c ∉ pathText frames := by
  intro hmem
  rcases mem_intercalate_singleton hmem with hc | ⟨text, htext, hc⟩
  · exact hblank hc
  · obtain ⟨frame, hframe, rfl⟩ := List.mem_map.mp htext
    exact notMem_frameText (hscopes frame hframe) hsign hdigit hcolon hc

/-- A frame is read back. -/
theorem readFrame_frameText {frame : Nat × List Char} (hscope : Numeric frame.2) :
    readFrame (frameText frame) = some (decimal (toInt32 frame.1), frame.2) := by
  have hid : ':' ∉ decimal (toInt32 frame.1) := (numeric_decimal _).notMem (by decide) (by decide)
  unfold readFrame frameText
  rw [List.splitOn_append_cons_self_of_not_mem (hscope.notMem (by decide) (by decide)),
    List.splitOn_eq_singleton hid]

/-- The frames of a call path are read back. -/
theorem mapM_readFrame (hscopes : ∀ frame ∈ frames, Numeric frame.2) :
    (frames.map frameText).mapM readFrame =
      some (frames.map fun frame => (decimal (toInt32 frame.1), frame.2)) := by
  induction frames with
  | nil => rfl
  | cons frame frames ih =>
      obtain ⟨hframe, hrest⟩ := List.forall_mem_cons.mp hscopes
      rw [List.map_cons, List.mapM_cons, readFrame_frameText hframe, ih hrest]
      rfl

/-- A line has only these characters, blanks and the bar. -/
theorem notMem_lineText (hscopes : ∀ frame ∈ frames, Numeric frame.2) (hsign : c ≠ '-')
    (hdigit : c.isDigit = false) (hcolon : c ≠ ':') (hblank : c ≠ ' ') (hbar : c ≠ '|')
    (metric : Nat) : c ∉ lineText frames metric := by
  have hpath := notMem_pathText hscopes hsign hdigit hcolon hblank
  have hmetric := (numeric_decimal (toInt32 metric)).notMem hsign hdigit
  simp [lineText, hpath, hmetric, hblank, hbar]

/-- The line of a sample is read back. -/
theorem readTrace_line (hne : frames ≠ []) (hscopes : ∀ frame ∈ frames, Numeric frame.2)
    (metric : Nat) :
    readTrace (lineText frames metric ++ ['\n']) =
      some ⟨frames.map fun frame => (decimal (toInt32 frame.1), frame.2), toInt32 metric⟩ := by
  -- the bar separates the frames from the metric
  have hsplit : split " |".toList (lineText frames metric ++ ['\n']) =
      [pathText frames, decimal (toInt32 metric) ++ ['\n']] := by
    have hpath := notMem_pathText (c := '|') hscopes (by decide) (by decide) (by decide) (by decide)
    have hmetric : '|' ∉ decimal (toInt32 metric) ++ ['\n'] := by
      rw [List.mem_append, not_or]
      exact ⟨(numeric_decimal _).notMem (by decide) (by decide), by decide⟩
    have hblank : '|' ∉ [' '] := by decide
    have h := split_append hpath hblank (decimal (toInt32 metric) ++ ['\n'])
    rw [split_of_notMem hmetric] at h
    simpa [lineText] using h
  -- and spaces separate the frames
  have hblanks : (pathText frames).splitOn ' ' = frames.map frameText := by
    refine List.splitOn_intercalate ' ' (fun text htext => ?_) (by simpa using hne)
    obtain ⟨frame, hframe, rfl⟩ := List.mem_map.mp htext
    exact notMem_frameText (hscopes frame hframe) (by decide) (by decide) (by decide)
  unfold readTrace
  rw [hsplit]
  dsimp only
  rw [readInt_decimal _ (by decide), hblanks, mapM_readFrame hscopes]
  rfl

/-- The converter reads the line of a sample and goes on behind it. -/
theorem readTraceLines_append (hne : frames ≠ []) (hscopes : ∀ frame ∈ frames, Numeric frame.2)
    (metric : Nat) (text : List Char) :
    readTraceLines (lines (lineText frames metric ++ '\n' :: text)) =
      (readTraceLines (lines text)).map fun traces =>
        ⟨frames.map fun frame => (decimal (toInt32 frame.1), frame.2), toInt32 metric⟩ ::
          traces := by
  have hline := notMem_lineText (c := '\n') hscopes (by decide) (by decide) (by decide) (by decide)
    (by decide) metric
  have hbar : " |".toList <:+: lineText frames metric ++ ['\n'] :=
    ⟨pathText frames, decimal (toInt32 metric) ++ ['\n'], by simp [lineText]⟩
  rw [lines_append hline, readTraceLines, if_pos hbar, readTrace_line hne hscopes]
  cases readTraceLines (lines text) <;> rfl

end Line

/-! ### Samples in one stream

A sample with an empty call path writes nothing, and the converter knows nothing of it. -/

/-- A call path and the metric of the line. -/
abbrev Sampled : Type := List (Nat × List Char) × Nat

/-- What the samples put into a stream. -/
def samplePieces (samples : List Sampled) : List Fragment :=
  samples.flatMap fun sample => tracePieces sample.1 sample.2

/-- The traces the converter should get. -/
def sampleTraces (samples : List Sampled) : List Trace :=
  (samples.filter fun sample => sample.1 ≠ []).map fun sample => sampleTrace sample.1 sample.2

/-- The line scopes are numbers. -/
def NumericScopes (callpathVec : List (Nat × List Char)) : Prop :=
  ∀ frame ∈ callpathVec, Numeric frame.2

/-- Frames that are left out do not matter. -/
theorem NumericScopes.collapse {callpathVec : List (Nat × List Char)}
    (h : NumericScopes callpathVec) : NumericScopes (collapse callpathVec) :=
  fun frame hframe => h frame ((List.destutter_sublist _ _).subset hframe)

/-- There is no line end but those of the lines. -/
theorem notMem_samplePieces {samples : List Sampled}
    (hscopes : ∀ sample ∈ samples, NumericScopes sample.1) :
    '\r' ∉ (samplePieces samples).flatMap Fragment.print := by
  intro hmem
  obtain ⟨data, hdata, hmem⟩ := List.mem_flatMap.mp hmem
  obtain ⟨sample, hsample, hdata⟩ := List.mem_flatMap.mp hdata
  have hmem : '\r' ∈ (tracePieces sample.1 sample.2).flatMap Fragment.print :=
    List.mem_flatMap.mpr ⟨data, hdata, hmem⟩
  by_cases hne : sample.1 = []
  · rw [tracePieces, if_pos hne] at hdata
    cases hdata
  · rw [print_tracePieces hne, List.mem_append] at hmem
    rcases hmem with hmem | hmem
    · exact notMem_lineText (hscopes sample hsample).collapse (by decide) (by decide) (by decide)
        (by decide) (by decide) sample.2 hmem
    · exact absurd hmem (by decide)

/-- Everything the samples put into a stream is read back, in order. -/
theorem readTraces_samplePieces {samples : List Sampled}
    (hscopes : ∀ sample ∈ samples, NumericScopes sample.1) :
    readTraces ((samplePieces samples).flatMap Fragment.print) = some (sampleTraces samples) := by
  rw [readTraces, readLines, universalNewlines_of_notMem (notMem_samplePieces hscopes)]
  induction samples with
  | nil => rfl
  | cons sample samples ih =>
      obtain ⟨hsample, hrest⟩ := List.forall_mem_cons.mp hscopes
      have ih := ih hrest
      rw [samplePieces, List.flatMap_cons, List.flatMap_append]
      by_cases hne : sample.1 = []
      · rw [tracePieces, if_pos hne, sampleTraces, List.filter_cons_of_neg (by simpa using hne)]
        exact ih
      · have hframes : collapse sample.1 ≠ [] := by
          simpa [collapse, List.destutter_eq_nil] using hne
        rw [print_tracePieces hne, List.append_assoc, List.singleton_append,
          readTraceLines_append hframes hsample.collapse]
        have htraces : sampleTraces (sample :: samples) =
            sampleTrace sample.1 sample.2 :: sampleTraces samples := by
          rw [sampleTraces, List.filter_cons_of_pos (by simpa using hne)]
          rfl
        rw [samplePieces] at ih
        rw [ih, htraces]
        rfl

/-! ### Samples on a thread

A sample goes into both streams of a thread, with the memory in use in the one and a fixed
number in the other. -/

/-- The thread is traced into two streams. -/
structure Tracing (t : AgentTls) (trace cachemiss : Output) : Prop where
  context : t.current.contextState = some ()
  trace : t.current.outputStateTrace = some trace
  cachemiss : t.current.outputStateCachemiss = some cachemiss

/-- The record after a sample. -/
def Tls.withTraces (t : AgentTls) (trace cachemiss : Output) : AgentTls :=
  t.update fun td =>
    { td with outputStateTrace := some trace, outputStateCachemiss := some cachemiss }

/-- A thread stays traced into its streams after a sample. -/
theorem Tracing.withTraces {t : AgentTls} {trace cachemiss : Output}
    (h : Tracing t trace cachemiss) (trace' cachemiss' : Output) :
    Tracing (t.withTraces trace' cachemiss') trace' cachemiss' := ⟨h.context, rfl, rfl⟩

/-- A sample writes the same call path to both streams. -/
theorem constructContext_eq {t : AgentTls} {trace cachemiss : Output}
    (h : Tracing t trace cachemiss) (callpathVec : List (Nat × List Char)) (usage : Nat) :
    constructContext callpathVec usage t = do
      let trace ← trace.writeAll (tracePieces callpathVec usage)
      let cachemiss ← cachemiss.writeAll (tracePieces callpathVec cachemissThreshold)
      return t.withTraces trace cachemiss := by
  rw [constructContext, h.context, h.trace, h.cachemiss]
  simp only [Option.mapM_some, writeTrace_eq]
  cases trace.writeAll (tracePieces callpathVec usage) with
  | error e => rfl
  | ok trace' => cases cachemiss.writeAll (tracePieces callpathVec cachemissThreshold) <;> rfl

/-- The thread's call path when a sample is taken, and the memory in use. -/
structure TakenSample where
  callpathVec : List (Nat × List Char)
  activeMemoryUsage : Nat
  deriving DecidableEq, Repr

/-- Samples one after another. -/
def takeSamples (samples : List TakenSample) (t : AgentTls) : Except Fault AgentTls :=
  samples.foldlM (fun t sample => constructContext sample.callpathVec sample.activeMemoryUsage t) t

/-- What the sample is for the trace stream. -/
def TakenSample.trace (sample : TakenSample) : Sampled :=
  (sample.callpathVec, sample.activeMemoryUsage)

/-- What the sample is for the cachemiss stream. -/
def TakenSample.cachemiss (sample : TakenSample) : Sampled :=
  (sample.callpathVec, cachemissThreshold)

/-- What the samples add to the two streams. -/
theorem takeSamples_written {samples : List TakenSample} {t t' : AgentTls}
    {trace cachemiss : Output} (htracing : Tracing t trace cachemiss) (hready : trace.Ready)
    (hready' : cachemiss.Ready) (h : takeSamples samples t = .ok t') :
    ∃ trace' cachemiss', Tracing t' trace' cachemiss' ∧
      trace'.written = trace.written ++ samplePieces (samples.map TakenSample.trace) ∧
      cachemiss'.written = cachemiss.written ++ samplePieces (samples.map TakenSample.cachemiss) := by
  induction samples generalizing t trace cachemiss with
  | nil =>
      cases h
      exact ⟨trace, cachemiss, htracing, (List.append_nil _).symm, (List.append_nil _).symm⟩
  | cons sample samples ih =>
      rw [takeSamples, List.foldlM_cons, constructContext_eq htracing] at h
      obtain ⟨t₁, hsample, h⟩ := bind_eq_ok.mp h
      obtain ⟨trace₁, htrace, hsample⟩ := bind_eq_ok.mp hsample
      obtain ⟨cachemiss₁, hmiss, hsample⟩ := bind_eq_ok.mp hsample
      cases hsample
      obtain ⟨hwritten, hready₁⟩ := Output.writeAll_ready hready htrace
      obtain ⟨hwritten', hready₁'⟩ := Output.writeAll_ready hready' hmiss
      obtain ⟨trace', cachemiss', htracing', hrest, hrest'⟩ :=
        ih (htracing.withTraces trace₁ cachemiss₁) hready₁ hready₁' h
      refine ⟨trace', cachemiss', htracing', ?_, ?_⟩
      · rw [hrest, hwritten, List.append_assoc]
        rfl
      · rw [hrest', hwritten', List.append_assoc]
        rfl

/-- The call paths fit the buffer that a piece is printed to. -/
def ScopesFit (callpathVec : List (Nat × List Char)) : Prop :=
  ∀ frame ∈ callpathVec, byteSize frame.2 ≤ 1000

/-- A number that was printed has ten digits at most. -/
theorem natAbs_toInt32_lt (a : Nat) : (toInt32 a).natAbs < 10 ^ 10 := by
  unfold toInt32
  split <;> omega

/-- The pieces of a sample fit the buffer if its scopes do. -/
theorem tracePieces_fit {callpathVec : List (Nat × List Char)} (h : ScopesFit callpathVec)
    (metric : Nat) :
    ∀ data ∈ tracePieces callpathVec metric, byteSize data.print < localBufferSize := by
  have hnumber : ∀ a, byteSize (decimal (toInt32 a)) ≤ 11 :=
    fun a => byteSize_decimal_le (by decide) (natAbs_toInt32_lt a)
  intro data hdata
  rcases mem_tracePieces hdata with ⟨frame, hframe, rfl⟩ | rfl
  · have hscope := h frame hframe
    have hid := hnumber frame.1
    have hcolon : charSize ':' = 1 := rfl
    have hblank : charSize ' ' = 1 := rfl
    simp only [framePiece, Fragment.print, byteSize_append, byteSize_cons, byteSize_nil,
      localBufferSize, hcolon, hblank]
    omega
  · have hid := hnumber metric
    have hbar : charSize '|' = 1 := rfl
    have hend : charSize '\n' = 1 := rfl
    simp only [Fragment.print, byteSize_append, byteSize_cons, byteSize_nil, localBufferSize,
      hbar, hend]
    omega

/-- Samples that fit can be taken. -/
theorem takeSamples_returns {samples : List TakenSample} {t : AgentTls} {trace cachemiss : Output}
    (htracing : Tracing t trace cachemiss)
    (hfit : ∀ sample ∈ samples, ScopesFit sample.callpathVec) :
    ∃ t', takeSamples samples t = .ok t' := by
  induction samples generalizing t trace cachemiss with
  | nil => exact ⟨t, rfl⟩
  | cons sample samples ih =>
      obtain ⟨hsample, hrest⟩ := List.forall_mem_cons.mp hfit
      obtain ⟨trace₁, htrace⟩ :=
        Output.writeAll_fits (tracePieces_fit hsample sample.activeMemoryUsage) trace
      obtain ⟨cachemiss₁, hmiss⟩ :=
        Output.writeAll_fits (tracePieces_fit hsample cachemissThreshold) cachemiss
      rw [takeSamples, List.foldlM_cons, constructContext_eq htracing, htrace, ok_bind, hmiss,
        ok_bind]
      exact ih (htracing.withTraces trace₁ cachemiss₁) hrest

/-- **Samples and the converter.** Whatever samples are taken on a thread with new streams, the
converter reads from the trace stream and from the cachemiss stream one trace for each sample
with a call path: the collapsed call path with the printed method ids, and the printed metric.
The samples are written whenever their line scopes fit the print buffer. -/
theorem constructContext_readTraces (samples : List TakenSample) (t : AgentTls)
    (trace cachemiss : Output) (htracing : Tracing t trace cachemiss)
    (htrace : trace.Ready ∧ trace.written = [])
    (hcachemiss : cachemiss.Ready ∧ cachemiss.written = [])
    (hscopes : ∀ sample ∈ samples, NumericScopes sample.callpathVec) :
    (∀ t', takeSamples samples t = .ok t' →
      ∃ trace' cachemiss', Tracing t' trace' cachemiss' ∧
        readTraces trace'.text = some (sampleTraces (samples.map TakenSample.trace)) ∧
        readTraces cachemiss'.text = some (sampleTraces (samples.map TakenSample.cachemiss))) ∧
    ((∀ sample ∈ samples, ScopesFit sample.callpathVec) →
      ∃ t', takeSamples samples t = .ok t') := by
  refine ⟨fun t' h => ?_, takeSamples_returns htracing⟩
  obtain ⟨trace', cachemiss', htracing', hwritten, hwritten'⟩ :=
    takeSamples_written htracing htrace.1 hcachemiss.1 h
  refine ⟨trace', cachemiss', htracing', ?_, ?_⟩
  · rw [Output.text, hwritten, htrace.2, List.nil_append]
    exact readTraces_samplePieces (by simpa [TakenSample.trace] using hscopes)
  · rw [Output.text, hwritten', hcachemiss.2, List.nil_append]
    exact readTraces_samplePieces (by simpa [TakenSample.cachemiss] using hscopes)

/-- A method that calls itself, and a sample without a call path. -/
def recursionSamples : List TakenSample :=
  [⟨[(16, "70307".toList), (4294967295, "0".toList), (4294967295, "40".toList)], 40⟩, ⟨[], 40⟩]

/-- The recursion is one frame, and the sample without a call path has no trace. -/
theorem constructContext_readTraces_recursion :
    ∃ t' trace', takeSamples recursionSamples startedThread.tls = .ok t' ∧
      t'.current.outputStateTrace = some trace' ∧
      readTraces trace'.text =
        some [⟨[("16".toList, "70307".toList), ("-1".toList, "0".toList)], 40⟩] := by
  obtain ⟨hread, hreturns⟩ := constructContext_readTraces recursionSamples startedThread.tls
    (newOutput "trace" 7) (newOutput "cachemiss" 7) ⟨rfl, rfl, rfl⟩ ⟨.inr (by decide), rfl⟩
    ⟨.inr (by decide), rfl⟩ (by unfold NumericScopes; decide)
  obtain ⟨t', ht'⟩ := hreturns (by unfold ScopesFit; decide)
  obtain ⟨trace', cachemiss', htracing, htrace, -⟩ := hread t' ht'
  exact ⟨t', trace', ht', htracing.trace, htrace⟩

end DroidPerf
