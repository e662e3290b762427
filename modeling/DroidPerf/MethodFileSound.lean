import DroidPerf.Lib.Run
import DroidPerf.ObjectsSound
import DroidPerf.PerfSetupSound
import DroidPerf.TraceSound
import DroidPerf.ConverterSound

/-!
# DroidPerf.MethodFileSound

The method file names every method of the trace files.

Three variables of a thread work together: the call path of the last `MethodEntry`, the set of
methods that have been written, and the streams. `Recorded` says how they fit, and holds in
every state of a thread; so whatever a sample writes names methods that are in the method
stream already (`traced_methods_written`).

For the invariant there is a lemma for each event: `Recorded.methodEntry`, where it is carried
through the loop over the frames (`EntryLoop`), `Recorded.threadStart`, where all streams are
new, and `Recorded.signal`, where only the trace streams grow (`perfEventHandler_frame`).
`Recorded.step` puts them together, and a run is an induction over the events.

The converter comes in at the end. Where the names hold no line ends, the method stream is a
file of lines and each of them gives an entry (`readMethods_lines`), so the converter finds
every frame of a trace (`KnownStream.neverDrops`).
-/

namespace DroidPerf

open Text Run

/-! ### Streams

What has been written is read off the pieces of a stream, not off its text. -/

/-- The methods that have a line in a method stream. -/
def writtenMethods (stream : Option Output) : List Nat :=
  (stream.elim [] Output.written).filterMap fun
    | .methodLine method _ _ => some method
    | _ => none

/-- The methods of the frames in a trace stream. -/
def tracedMethods (stream : Option Output) : List Nat :=
  (stream.elim [] Output.written).filterMap fun
    | .frame _ method => some method
    | _ => none

/-- The part of a thread's record that is written to here. -/
structure Streams where
  tid : Nat
  method : Option Output
  trace : Option Output
  cachemiss : Option Output

/-- The streams of a thread. -/
def Tls.streams (t : AgentTls) : Streams :=
  ⟨t.gettid, t.current.outputState, t.current.outputStateTrace, t.current.outputStateCachemiss⟩

/-- The id of the thread is not part of its record. -/
@[simp] theorem Tls.gettid_update {π κ ω : Type} (f : ThreadData π κ ω → ThreadData π κ ω)
    (t : Tls π κ ω) : (t.update f).gettid = t.gettid := by
  cases h : t.slot <;> simp [Tls.update, threadDataGet, threadDataAlloc, h]

/-- A call path of written methods. -/
def KnownPath (methods : List Nat) (callpathVec : List (Nat × List Char)) : Prop :=
  ∀ frame ∈ callpathVec, frame.1 ∈ methods ∧ Numeric frame.2

/-- A trace stream of samples whose methods are written. -/
def KnownStream (methods : List Nat) (stream : Option Output) : Prop :=
  ∀ o, stream = some o → o.Ready ∧ ∃ samples : List Sampled,
    o.written = samplePieces samples ∧ ∀ sample ∈ samples, KnownPath methods sample.1

/-- How a thread's streams and variables fit together. -/
structure Recorded (s : Streams) (v : ThreadLocals) : Prop where
  tid : s.tid < 2 ^ 32
  ready : ∀ o, s.method = some o → o.Ready
  written : writtenMethods s.method = v.methodIdList.elems
  callpath : KnownPath v.methodIdList.elems v.callpathVec
  trace : KnownStream v.methodIdList.elems s.trace
  cachemiss : KnownStream v.methodIdList.elems s.cachemiss

/-- The empty path is known. -/
theorem knownPath_nil (methods : List Nat) : KnownPath methods [] := by
  intro frame hframe
  cases hframe

/-- A stream that is not there is known. -/
theorem knownStream_none (methods : List Nat) : KnownStream methods none := by
  intro o ho
  cases ho

/-- A known path stays known when more methods are written. -/
theorem KnownPath.mono {methods methods' : List Nat} {callpathVec : List (Nat × List Char)}
    (h : KnownPath methods callpathVec) (hsub : methods ⊆ methods') :
    KnownPath methods' callpathVec :=
  fun frame hframe => ⟨hsub (h frame hframe).1, (h frame hframe).2⟩

/-- A known stream stays known when more methods are written. -/
theorem KnownStream.mono {methods methods' : List Nat} {stream : Option Output}
    (h : KnownStream methods stream) (hsub : methods ⊆ methods') : KnownStream methods' stream := by
  intro o ho
  obtain ⟨hready, samples, hwritten, hsamples⟩ := h o ho
  exact ⟨hready, samples, hwritten, fun sample hsample => (hsamples sample hsample).mono hsub⟩

/-- A sample with a known call path keeps a stream known. -/
theorem KnownStream.writeTrace {methods : List Nat} {stream stream' : Option Output}
    {callpathVec : List (Nat × List Char)} {metric : Nat} (h : KnownStream methods stream)
    (hpath : KnownPath methods callpathVec)
    (hwrite : stream.mapM (DroidPerf.writeTrace callpathVec metric) = .ok stream') :
    KnownStream methods stream' := by
  cases stream with
  | none =>
      cases hwrite
      exact h
  | some o =>
      obtain ⟨o₁, ho₁, hwrite⟩ := bind_eq_ok.mp hwrite
      cases hwrite
      -- the pieces of the sample are appended to those of the samples before
      obtain ⟨hready, samples, hwritten, hsamples⟩ := h o rfl
      rw [writeTrace_eq] at ho₁
      obtain ⟨hwritten₁, hready₁⟩ := Output.writeAll_ready hready ho₁
      intro o' ho'
      cases ho'
      refine ⟨hready₁, samples ++ [(callpathVec, metric)], ?_, ?_⟩
      · rw [hwritten₁, hwritten, samplePieces, samplePieces, List.flatMap_append,
          List.flatMap_singleton]
      · refine List.forall_mem_append.mpr ⟨hsamples, ?_⟩
        intro sample hsample
        rw [List.mem_singleton.mp hsample]
        exact hpath

/-- The methods of a known stream, each by itself. -/
theorem tracedMethods_known {methods : List Nat} {stream : Option Output}
    (h : KnownStream methods stream) : ∀ method ∈ tracedMethods stream, method ∈ methods := by
  intro method hmethod
  cases stream with
  | none => cases hmethod
  | some o =>
      obtain ⟨-, samples, hwritten, hsamples⟩ := h o rfl
      obtain ⟨data, hdata, hmethod⟩ := List.mem_filterMap.mp hmethod
      have hdata : data ∈ samplePieces samples := hwritten ▸ hdata
      obtain ⟨sample, hsample, hdata⟩ := List.mem_flatMap.mp hdata
      rcases mem_tracePieces hdata with ⟨frame, hframe, rfl⟩ | rfl
      · cases hmethod
        exact (hsamples sample hsample frame hframe).1
      · cases hmethod

/-! ### Samples

A signal can write samples to the two trace streams and does nothing else that matters here. -/

/-- Entering the profiler leaves the streams as they are. -/
@[simp] theorem streams_profilerSafeEnter (t : AgentTls) :
    (profilerSafeEnter t).2.streams = t.streams := by
  cases h : t.slot <;>
    simp [Tls.streams, profilerSafeEnter, threadDataGet, threadDataAlloc, Tls.current, Tls.update, h]

/-- Leaving the profiler leaves the streams as they are. -/
@[simp] theorem streams_profilerSafeExit (t : AgentTls) :
    (profilerSafeExit t).streams = t.streams := by
  simp [Tls.streams, profilerSafeExit]

/-- To look the record up, which may allocate one, leaves the streams as they are. -/
@[simp] theorem streams_threadDataGet (t : AgentTls) : (threadDataGet t).2.streams = t.streams := by
  cases h : t.slot <;> simp [Tls.streams, threadDataGet, threadDataAlloc, Tls.current, h]

/-- A sample is written with the call path of the thread's variables, which is known. -/
theorem constructContext_recorded {t t' : AgentTls} {v : ThreadLocals} {usage : Nat}
    (hrec : Recorded t.streams v) (h : constructContext v.callpathVec usage t = .ok t') :
    Recorded t'.streams v ∧ t'.streams.method = t.streams.method := by
  unfold constructContext at h
  split at h
  · cases h
    rw [streams_threadDataGet]
    exact ⟨hrec, rfl⟩
  · obtain ⟨trace, htrace, h⟩ := bind_eq_ok.mp h
    obtain ⟨cachemiss, hcachemiss, h⟩ := bind_eq_ok.mp h
    cases h
    refine ⟨⟨?_, hrec.ready, hrec.written, hrec.callpath, ?_, ?_⟩, rfl⟩
    · rw [Tls.streams, Tls.gettid_update]
      exact hrec.tid
    · exact hrec.trace.writeTrace hrec.callpath htrace
    · exact hrec.cachemiss.writeTrace hrec.callpath hcachemiss

/-- What a sample leaves as it is. -/
structure SampleFrame (s : Streams) (v : Variables) (q : AgentTls × Variables) : Prop where
  recorded : Recorded q.1.streams q.2.locals
  method : q.1.streams.method = s.method
  user : q.2 = v

/-- A sample that is delivered keeps `SampleFrame`. -/
theorem onSample_frame {env : ProfilerEnv} {id : Nat} {d : PerfSampleData} {a b c : Int}
    {s : Streams} {v : Variables} {q q' : AgentTls × Variables} (hq : SampleFrame s v q)
    (h : onSample env id d a b c q = .ok q') : SampleFrame s v q' := by
  obtain ⟨t, v'⟩ := q
  obtain rfl | ⟨t', ht', rfl⟩ := onSample_cases h
  · exact hq
  · obtain ⟨hrec, hmethod⟩ := constructContext_recorded hq.recorded ht'
    show SampleFrame s v (t', v')
    exact ⟨hrec, hmethod.trans hq.method, hq.user⟩

/-- A signal keeps `SampleFrame`, however many samples it reads. -/
theorem perfEventHandler_frame {env : ProfilerEnv} {mask fuel : Nat} {siginfo : SigInfo}
    {w w' : AgentThread} (hrec : Recorded w.tls.streams w.user.locals)
    (h : perfEventHandler mask (some (onSample env)) fuel siginfo w = .ok w') :
    SampleFrame w.tls.streams w.user (w'.tls, w'.user) := by
  refine perfEventHandler_preserves (P := SampleFrame w.tls.streams w.user) ?_ ?_ ?_
    ⟨hrec, rfl, rfl⟩ h
  · intro t v hq
    exact ⟨by simpa using hq.recorded, by simpa using hq.method, hq.user⟩
  · intro t v hq
    exact ⟨by simpa using hq.recorded, by simpa using hq.method, hq.user⟩
  · intro id d a b c s s' hq hcall
    exact onSample_frame hq hcall

/-! ### Callbacks

`MethodEntry` takes the frames of its stack one after another. Each puts its method into the
call path, and writes the method first if it is new. -/

/-- The text of a scope is made of numbers. -/
theorem numeric_scope (t : LineTable) (location : Int) : Numeric (t.scope location) := by
  have hzero : '0' = '-' ∨ Char.isDigit '0' = true := .inr rfl
  exact (numeric_decimal _).append
    (((numeric_decimal _).append ((numeric_decimal _).cons hzero)).cons hzero)

/-- The scope of a frame is made of numbers. -/
theorem numeric_entryScope (frame : Frame) (i : Nat) : Numeric (entryScope frame i) := by
  have hzero : Numeric ['0'] := by decide
  unfold entryScope
  split
  · split
    · exact hzero
    · exact numeric_scope _ _
  · exact hzero

/-- The variables after a frame of `MethodEntry`, when the method has been written. -/
def Variables.pushFrame (v : Variables) (method : Nat) (scope : List Char) : Variables :=
  { v with locals := { v.locals with callpathVec := v.locals.callpathVec ++ [(method, scope)] } }

/-- The class text in the method file. -/
def methodClass (v : Variables) (frame : Frame) : List Char :=
  v.globals.objectInfo ++ (className frame.classSignature ++ ".java".toList)

/-- What one frame of `MethodEntry` can do: only the call path grows, or the method is
new and gets its line. -/
theorem methodEntryFrame_cases {o : Output} {v : Variables} {frame : Frame × Nat}
    {q : Output × Variables} (h : methodEntryFrame (o, v) frame = .ok q) :
    ∃ scope, Numeric scope ∧
      (frame.1.method ∈ v.locals.methodIdList.elems ∧ q = (o, v.pushFrame frame.1.method scope) ∨
        frame.1.method ∉ v.locals.methodIdList.elems ∧
          ∃ o', o.writef (.methodLine frame.1.method frame.1.methodName (methodClass v frame.1)) =
              .ok o' ∧
            q = (o', { v.pushFrame frame.1.method scope with
              locals := { (v.pushFrame frame.1.method scope).locals with
                methodIdList := v.locals.methodIdList.insert frame.1.method } })) := by
  obtain ⟨frame, i⟩ := frame
  refine ⟨entryScope frame i, numeric_entryScope frame i, ?_⟩
  unfold methodEntryFrame at h
  dsimp only at h
  split at h
  · rename_i hmem
    cases h
    exact .inl ⟨hmem, rfl⟩
  · rename_i hmem
    obtain ⟨o', ho', h⟩ := bind_eq_ok.mp h
    cases h
    exact .inr ⟨hmem, o', ho', rfl⟩

/-- What holds of the stream and the variables while `MethodEntry` runs over the frames. -/
structure EntryLoop (methods : List Nat) (q : Output × Variables) : Prop where
  ready : q.1.Ready
  written : writtenMethods (some q.1) = q.2.locals.methodIdList.elems
  callpath : KnownPath q.2.locals.methodIdList.elems q.2.locals.callpathVec
  grows : methods ⊆ q.2.locals.methodIdList.elems

/-- A frame of a written method can be added to a path. -/
theorem KnownPath.push {methods : List Nat} {callpathVec : List (Nat × List Char)} {method : Nat}
    {scope : List Char} (h : KnownPath methods callpathVec) (hmethod : method ∈ methods)
    (hscope : Numeric scope) : KnownPath methods (callpathVec ++ [(method, scope)]) := by
  refine List.forall_mem_append.mpr ⟨h, fun frame hframe => ?_⟩
  rw [List.mem_singleton.mp hframe]
  exact ⟨hmethod, hscope⟩

/-- A frame keeps the loop's invariant. -/
theorem EntryLoop.frame {methods : List Nat} {o : Output} {v : Variables} {frame : Frame × Nat}
    {q : Output × Variables} (hq : EntryLoop methods (o, v))
    (h : methodEntryFrame (o, v) frame = .ok q) : EntryLoop methods q := by
  obtain ⟨scope, hscope, ⟨hmem, rfl⟩ | ⟨hmem, o', ho', rfl⟩⟩ := methodEntryFrame_cases h
  · -- the method has a line already
    exact ⟨hq.ready, hq.written, hq.callpath.push hmem hscope, hq.grows⟩
  · obtain ⟨hwritten, hready⟩ := Output.writef_ready hq.ready ho'
    have helems := ListSet.elems_insert_of_notMem hmem
    have hsub : v.locals.methodIdList.elems ⊆
        (v.locals.methodIdList.insert frame.1.method).elems := by
      rw [helems]
      exact List.subset_append_left _ _
    refine ⟨hready, ?_, ?_, fun m hm => hsub (hq.grows hm)⟩
    · have hbefore := hq.written
      unfold writtenMethods at hbefore ⊢
      show List.filterMap _ o'.written = _
      rw [hwritten, List.filterMap_append]
      refine Eq.trans ?_ helems.symm
      exact congrArg (· ++ [frame.1.method]) hbefore
    · exact (hq.callpath.mono hsub).push (ListSet.mem_insert.mpr (.inr rfl)) hscope

/-- Blocking samples leaves the streams alone. -/
@[simp] theorem streams_blockSample (w : AgentThread) :
    (blockSample w).tls.streams = w.tls.streams := by
  simp [Tls.streams, blockSample]

/-- Allowing samples again leaves the streams alone. -/
@[simp] theorem streams_unblockSample (w : AgentThread) :
    (unblockSample w).tls.streams = w.tls.streams := by
  simp [Tls.streams, unblockSample]

/-- The variables after `callpath_vec.clear()`. -/
def Variables.clearCallpath (v : Variables) : Variables :=
  { v with locals := { v.locals with callpathVec := [] } }

/-- `MethodEntry` on a thread with a method stream. -/
theorem methodEntry_eq {w : AgentThread} {o : Output} (ho : w.tls.current.outputState = some o)
    (env : AgentEnv) (frames : List Frame) :
    runCallback env (.methodEntry (some frames)) w =
      (frames.zipIdx.reverse.foldlM methodEntryFrame (o, w.user.clearCallpath)).map fun q =>
        unblockSample { blockSample w with
          tls := (blockSample w).tls.update fun td => { td with outputState := some q.1 }
          user := q.2 } := by
  have hout : (blockSample w).tls.current.outputState = some o := ho
  unfold runCallback
  simp only [Callback.body, runStmts, methodEntry, List.foldlM_cons, List.foldlM_nil, ok_bind,
    hout]
  show _ = Except.map _ (List.foldlM methodEntryFrame (o, (blockSample w).user.clearCallpath) _)
  unfold Variables.clearCallpath
  cases List.foldlM methodEntryFrame _ _ <;> rfl

/-- `MethodEntry` on another thread, or without a stack trace. -/
theorem methodEntry_idle {w : AgentThread} {stackTrace : Option (List Frame)}
    (h : w.tls.current.outputState = none ∨ stackTrace = none) (env : AgentEnv) :
    runCallback env (.methodEntry stackTrace) w =
      .ok (unblockSample { blockSample w with user := w.user.clearCallpath }) := by
  unfold runCallback
  simp only [Callback.body, runStmts, methodEntry, List.foldlM_cons, List.foldlM_nil, ok_bind]
  split
  · rename_i o frames hout
    have hout' : w.tls.current.outputState = some o := hout
    simp [hout'] at h
  · rfl

/-- What `MethodEntry` can do: clear the call path only, or run over the frames. -/
theorem methodEntry_cases {env : AgentEnv} {stackTrace : Option (List Frame)} {w w' : AgentThread}
    (h : runCallback env (.methodEntry stackTrace) w = .ok w') :
    w'.tls.streams = w.tls.streams ∧ w'.user = w.user.clearCallpath ∨
      ∃ o frames q, w.tls.streams.method = some o ∧ stackTrace = some frames ∧
        frames.zipIdx.reverse.foldlM methodEntryFrame (o, w.user.clearCallpath) = .ok q ∧
        w'.tls.streams = { w.tls.streams with method := some q.1 } ∧ w'.user = q.2 := by
  by_cases hidle : w.tls.current.outputState = none ∨ stackTrace = none
  · rw [methodEntry_idle hidle] at h
    cases h
    exact .inl ⟨by rw [streams_unblockSample]; exact streams_blockSample w, rfl⟩
  · obtain ⟨hsome, htaken⟩ := not_or.mp hidle
    obtain ⟨o, ho⟩ := Option.ne_none_iff_exists'.mp hsome
    obtain ⟨frames, rfl⟩ := Option.ne_none_iff_exists'.mp htaken
    rw [methodEntry_eq ho] at h
    obtain ⟨q, hloop, rfl⟩ := map_eq_ok.mp h
    refine .inr ⟨o, frames, q, ho, rfl, hloop, ?_, rfl⟩
    rw [streams_unblockSample]
    simp [Tls.streams, blockSample]

/-- `callbackThreadStart` leaves a new record with new streams, and clears the thread's
variables. -/
theorem threadStart_record {env : AgentEnv} {answers : Nat → Fin 8 → SetupAnswers}
    {w w' : AgentThread} (h : runCallback env (.threadStart answers) w = .ok w') :
    w'.tls.gettid = w.tls.gettid ∧ w'.user = { w.user with locals := ⟨.empty, fun _ => 0, []⟩ } ∧
      ∃ perfState, w'.tls.current = { (ThreadData.zero w.tls.gettid : AgentThreadData) with
        perfState := perfState
        contextState := some ()
        outputState := some (newOutput "method" w.tls.gettid)
        outputStateTrace := some (newOutput "trace" w.tls.gettid)
        outputStateAlloc := some (newOutput "alloc" w.tls.gettid)
        outputStateCachemiss := some (newOutput "cachemiss" w.tls.gettid) } := by
  have htid : (blockSample w).tls.gettid = w.tls.gettid := by simp [blockSample]
  obtain ⟨w₁, hbody, h⟩ := bind_eq_ok.mp h
  cases h
  simp only [Callback.body, runStmts, threadStart, setThreadData, List.foldlM_cons,
    List.foldlM_nil, ok_bind] at hbody
  obtain ⟨w₂, hmap, hbody⟩ := bind_eq_ok.mp hbody
  cases hbody
  obtain ⟨⟨done, w₃⟩, hsetup, hw₃⟩ := map_eq_ok.mp hmap
  cases hw₃
  obtain ⟨huser, perfState, htls⟩ := setupEvents_tls hsetup
  refine ⟨?_, huser.trans rfl, perfState, ?_⟩
  · rw [unblockSample, Tls.gettid_update, htls, Tls.gettid_update, ← htid]
    rfl
  · rw [unblockSample, Tls.current_update, htls, Tls.current_update, ← htid]
    rfl

/-- The streams and the variables after `callbackThreadStart`. -/
theorem threadStart_eq {env : AgentEnv} {answers : Nat → Fin 8 → SetupAnswers}
    {w w' : AgentThread} (h : runCallback env (.threadStart answers) w = .ok w') :
    w'.tls.streams = ⟨w.tls.gettid, some (newOutput "method" w.tls.gettid),
        some (newOutput "trace" w.tls.gettid), some (newOutput "cachemiss" w.tls.gettid)⟩ ∧
      w'.user = { w.user with locals := ⟨.empty, fun _ => 0, []⟩ } := by
  obtain ⟨hgettid, huser, perfState, hcurrent⟩ := threadStart_record h
  refine ⟨?_, huser⟩
  rw [Tls.streams, hgettid, hcurrent]

/-- Nothing has been written to a new stream. -/
theorem newOutput_written (kind : String) (tid : Nat) : (newOutput kind tid).written = [] := by
  unfold newOutput Output.setFileName
  split <;> [rfl; split <;> rfl]

/-- A new method stream names no methods. -/
theorem writtenMethods_newOutput (kind : String) (tid : Nat) :
    writtenMethods (some (newOutput kind tid)) = [] := by
  unfold writtenMethods
  rw [Option.elim_some, newOutput_written, List.filterMap_nil]

/-- The file names of a thread fit the name buffer. -/
theorem newOutput_ready {kind : String} {tid : Nat} (hkind : byteSize kind.toList ≤ 100)
    (htid : tid < 2 ^ 32) : (newOutput kind tid).Ready := by
  have hid : byteSize (decimal tid) ≤ 11 := byteSize_decimal_le (by decide) (by omega)
  have hdir : byteSize "/sdcard/Documents/".toList = 18 := by decide
  have hthread : byteSize "-thread-".toList = 8 := by decide
  have hrun : byteSize ".run".toList = 4 := by decide
  right
  unfold newOutput Output.setFileName
  rw [if_neg (by decide), if_neg]
  · simp only [byteSize_append, hdir]
    omega
  · simp only [byteSize_append, hdir, hthread, hrun, nameBufferSize]
    omega

/-- A new trace stream is known, whatever methods there are. -/
theorem knownStream_newOutput (methods : List Nat) (kind : String) {tid : Nat}
    (hkind : byteSize kind.toList ≤ 100) (htid : tid < 2 ^ 32) :
    KnownStream methods (some (newOutput kind tid)) := by
  intro o ho
  rw [← Option.some.inj ho]
  exact ⟨newOutput_ready hkind htid, [], newOutput_written kind tid, by simp⟩

/-! ### Runs of a thread

An event may be one of another thread, which changes the global variables only. -/

/-- What happens to a thread: its callbacks, signals and what the kernel does for them,
and the callbacks of other threads that change the global variables. -/
inductive ThreadEvent where
  | threadStart (answers : Nat → Fin 8 → SetupAnswers)
  | methodEntry (stackTrace : Option (List Frame))
  | signal (fuel : Nat) (siginfo : SigInfo)
  | kernel (k : Kernel)
  | sites (event : SitesEvent)

/-- One event. -/
def ThreadEvent.step (env : AgentEnv) (mask : Nat) (w : AgentThread) :
    ThreadEvent → Except Fault AgentThread
  | .threadStart answers => runCallback env (.threadStart answers) w
  | .methodEntry stackTrace => runCallback env (.methodEntry stackTrace) w
  | .signal fuel siginfo =>
    perfEventHandler mask (some (onSample env.profiler)) fuel siginfo w
  | .kernel k => .ok { w with kernel := k }
  | .sites event =>
    (event.step env w.user.globals).map fun g => { w with user := { w.user with globals := g } }

/-- After a step every traced method is one that was written before the step, and no
method is written twice. -/
def WrittenBefore (w w' : AgentThread) : Prop :=
  (∀ method ∈ tracedMethods w'.tls.current.outputStateTrace ++
      tracedMethods w'.tls.current.outputStateCachemiss,
    method ∈ writtenMethods w.tls.current.outputState) ∧
  (writtenMethods w'.tls.current.outputState).Nodup

/-- What a step has to show: the trace streams know only the methods written before it. -/
theorem Recorded.writtenBefore {w w' : AgentThread} (hw : Recorded w.tls.streams w.user.locals)
    (hw' : Recorded w'.tls.streams w'.user.locals)
    (htrace : KnownStream w.user.locals.methodIdList.elems w'.tls.streams.trace)
    (hcachemiss : KnownStream w.user.locals.methodIdList.elems w'.tls.streams.cachemiss) :
    WrittenBefore w w' := by
  have hwritten : writtenMethods w.tls.current.outputState = _ := hw.written
  have hwritten' : writtenMethods w'.tls.current.outputState = _ := hw'.written
  refine ⟨fun method hmethod => ?_, ?_⟩
  · rw [hwritten]
    rcases List.mem_append.mp hmethod with hmethod | hmethod
    · exact tracedMethods_known htrace method hmethod
    · exact tracedMethods_known hcachemiss method hmethod
  · rw [hwritten']
    exact w'.user.locals.methodIdList.nodup

/-- A method is entered: the streams of the samples stay, the set of methods grows. -/
theorem Recorded.methodEntry {env : AgentEnv} {stackTrace : Option (List Frame)}
    {w w' : AgentThread} (hw : Recorded w.tls.streams w.user.locals)
    (h : runCallback env (.methodEntry stackTrace) w = .ok w') :
    Recorded w'.tls.streams w'.user.locals ∧ WrittenBefore w w' := by
  obtain ⟨hstreams, huser⟩ | ⟨o, frames, q, hout, -, hloop, hstreams, huser⟩ := methodEntry_cases h
  · have hw' : Recorded w'.tls.streams w'.user.locals := by
      rw [hstreams, huser]
      show Recorded w.tls.streams { w.user.locals with callpathVec := [] }
      exact ⟨hw.tid, hw.ready, hw.written, knownPath_nil _, hw.trace, hw.cachemiss⟩
    refine ⟨hw', hw.writtenBefore hw' ?_ ?_⟩
    · rw [hstreams]
      exact hw.trace
    · rw [hstreams]
      exact hw.cachemiss
  · have hstart : EntryLoop w.user.locals.methodIdList.elems (o, w.user.clearCallpath) :=
      ⟨hw.ready o hout, hout ▸ hw.written, knownPath_nil _, fun _ hm => hm⟩
    -- the invariant of the loop, from the empty call path on
    have hend : EntryLoop w.user.locals.methodIdList.elems q :=
      foldlM_preserves (fun frame _ q q' hq hframe => hq.frame hframe) hstart hloop
    have hw' : Recorded w'.tls.streams w'.user.locals := by
      rw [hstreams, huser]
      refine ⟨hw.tid, ?_, hend.written, hend.callpath, hw.trace.mono hend.grows,
        hw.cachemiss.mono hend.grows⟩
      intro o ho
      rw [← Option.some.inj ho]
      exact hend.ready
    refine ⟨hw', hw.writtenBefore hw' ?_ ?_⟩
    · rw [hstreams]
      exact hw.trace
    · rw [hstreams]
      exact hw.cachemiss

/-- A thread is started: nothing has been written, and the set of methods is empty. -/
theorem Recorded.threadStart {env : AgentEnv} {answers : Nat → Fin 8 → SetupAnswers}
    {w w' : AgentThread} (hw : Recorded w.tls.streams w.user.locals)
    (h : runCallback env (.threadStart answers) w = .ok w') :
    Recorded w'.tls.streams w'.user.locals ∧ WrittenBefore w w' := by
  obtain ⟨hstreams, huser⟩ := threadStart_eq h
  have htid : w.tls.gettid < 2 ^ 32 := hw.tid
  have htrace := fun methods => knownStream_newOutput methods "trace" (by decide) htid
  have hcachemiss :=
    fun methods => knownStream_newOutput methods "cachemiss" (by decide) htid
  have hw' : Recorded w'.tls.streams w'.user.locals := by
    rw [hstreams, huser]
    show Recorded _ ⟨.empty, fun _ => 0, []⟩
    refine ⟨htid, ?_, ?_, knownPath_nil _, htrace _, hcachemiss _⟩
    · intro o ho
      rw [← Option.some.inj ho]
      exact newOutput_ready (by decide) htid
    · exact writtenMethods_newOutput _ _
  refine ⟨hw', hw.writtenBefore hw' ?_ ?_⟩
  · rw [hstreams]
    exact htrace _
  · rw [hstreams]
    exact hcachemiss _

/-- A signal: the trace streams grow by samples with the thread's call path. -/
theorem Recorded.signal {env : ProfilerEnv} {mask fuel : Nat} {siginfo : SigInfo}
    {w w' : AgentThread} (hw : Recorded w.tls.streams w.user.locals)
    (h : perfEventHandler mask (some (onSample env)) fuel siginfo w = .ok w') :
    Recorded w'.tls.streams w'.user.locals ∧ WrittenBefore w w' := by
  obtain ⟨hw', hmethod, huser⟩ := perfEventHandler_frame hw h
  have huser : w'.user = w.user := huser
  refine ⟨hw', hw.writtenBefore hw' ?_ ?_⟩
  · rw [← huser]
    exact hw'.trace
  · rw [← huser]
    exact hw'.cachemiss

/-- One event keeps the streams and the variables together. -/
theorem Recorded.step {env : AgentEnv} {mask : Nat} {event : ThreadEvent} {w w' : AgentThread}
    (hw : Recorded w.tls.streams w.user.locals) (h : event.step env mask w = .ok w') :
    Recorded w'.tls.streams w'.user.locals ∧ WrittenBefore w w' := by
  cases event with
  | threadStart answers => exact hw.threadStart h
  | methodEntry stackTrace => exact hw.methodEntry h
  | signal fuel siginfo => exact hw.signal h
  | kernel k =>
      cases h
      exact ⟨hw, hw.writtenBefore hw hw.trace hw.cachemiss⟩
  | sites event =>
      obtain ⟨g, -, rfl⟩ := map_eq_ok.mp h
      exact ⟨hw, hw.writtenBefore hw hw.trace hw.cachemiss⟩

/-- A thread that is not started yet has no streams. -/
theorem recorded_newThread {tid : Nat} (htid : tid < 2 ^ 32) :
    Recorded (newThread tid).tls.streams (newThread tid).user.locals := by
  refine ⟨htid, ?_, rfl, knownPath_nil _, knownStream_none _, knownStream_none _⟩
  intro o ho
  cases ho

/-! ### Names without line ends

A line end within a name would break a line of the method file in two. That no name has one is
assumed of the virtual machine's names and shown of the texts that the agent makes itself. -/

/-- The ending that is put behind a class. -/
theorem oneLine_java : OneLine ".java".toList := by decide

/-- The class of a signature has no line ends if the signature has none. -/
theorem oneLine_className {signature : List Char} (h : OneLine signature) :
    OneLine (className signature) := by
  intro c hc
  obtain ⟨d, hd, rfl⟩ := List.mem_map.mp hc
  have hd : d ∈ signature := List.mem_of_mem_drop (List.mem_of_mem_take hd)
  split
  · decide
  · exact h d hd

/-- The names the VM gives have no line ends in them. -/
def ThreadEvent.OneLineNames : ThreadEvent → Prop
  | .methodEntry (some frames) =>
    ∀ frame ∈ frames, OneLine frame.methodName ∧ OneLine frame.classSignature
  | .sites (.alloc _ args) => OneLine args.classSignature
  | _ => True

/-- The recorded sites have no line ends in them. -/
structure OneLineSites (g : Globals) : Prop where
  info : OneLine g.objectInfo
  sites : ∀ str ∈ g.objectLiveCycle.elems, OneLine str

/-- A method stream of lines. -/
def MethodLines (stream : Option Output) : Prop :=
  ∀ o, stream = some o → ∀ data ∈ o.written, ∃ method name className,
    data = .methodLine method name className ∧ OneLine name ∧ OneLine className

/-- The identifier of a site has no line end if the name has none. -/
theorem oneLine_objShortIdentifier {name : List Char} (h : OneLine name) (lineNumber : Int)
    (size : Nat) : OneLine (objShortIdentifier name lineNumber size) := by
  have hln : OneLine ";LN".toList := by decide
  have hsz : OneLine ";sz".toList := by decide
  exact (((h.append hln).append (numeric_decimal _).oneLine).append hsz).append
    (numeric_decimal _).oneLine

/-- Another site without line ends does no harm. -/
theorem OneLineSites.addSite {a : AllocArgs} {g : Globals} {site : List Char × Int}
    (h : OneLineSites g) (hname : OneLine site.1) : OneLineSites (addSite a g site) := by
  have hshort := oneLine_objShortIdentifier hname site.2 a.size
  have hclose : OneLine [']'] := by decide
  refine ⟨h.info.append ((hshort.append hclose).cons (by decide)), fun str hstr => ?_⟩
  rcases ListSet.mem_insert.mp hstr with hstr | rfl
  · exact h.sites str hstr
  · exact hshort.append ((numeric_decimal _).oneLine.cons (by decide))

/-- The sites of an allocation have no line ends if the class has none. -/
theorem oneLine_allocSites {a : AllocArgs} {frames : List Frame} {name : List Char}
    (h : OneLine name) : ∀ site ∈ allocSites a frames name, OneLine site.1 := by
  induction frames generalizing name with
  | nil => simp [allocSites]
  | cons frame frames ih =>
      unfold allocSites
      split
      · exact ih h
      · split
        · exact ih h
        · split
          · have hname := h.append oneLine_java
            exact List.forall_mem_cons.mpr ⟨hname, ih hname⟩
          · exact ih h

/-- All sites of an allocation can be added. -/
theorem OneLineSites.foldl_addSite {a : AllocArgs} {g : Globals} {sites : List (List Char × Int)}
    (h : OneLineSites g) (hsites : ∀ site ∈ sites, OneLine site.1) :
    OneLineSites (sites.foldl (DroidPerf.addSite a) g) := by
  induction sites generalizing g with
  | nil => exact h
  | cons site sites ih =>
      obtain ⟨hsite, hrest⟩ := List.forall_mem_cons.mp hsites
      exact ih (h.addSite hsite) hrest

/-- Allocations and frees of other threads bring no line ends in. -/
theorem OneLineSites.step {env : AgentEnv} {event : SitesEvent} {g g' : Globals}
    (h : OneLineSites g) (hnames : (ThreadEvent.sites event).OneLineNames)
    (hstep : event.step env g = .ok g') : OneLineSites g' := by
  cases event with
  | alloc w args =>
      rw [alloc_step_eq hstep]
      have hcount : OneLineSites (countAlloc args.size g) := ⟨h.info, h.sites⟩
      refine hcount.foldl_addSite ?_
      have hclass : OneLine args.classSignature := hnames
      unfold recordedSites
      split
      · exact oneLine_allocSites (oneLine_className hclass)
      · exact fun site hsite => nomatch hsite
  | free traversal tag =>
      rw [objectFree_eq hstep]
      refine ⟨fun c hc => ?_, h.sites⟩
      obtain ⟨str, hstr, hc⟩ := List.mem_flatMap.mp hc
      have hmem := (traversal.perm g.objectLiveCycle).mem_iff.mp hstr
      exact h.sites str hmem c ((List.takeWhile_prefix _).subset hc)

/-! ### The converter's method map

Each line of the method file adds an entry to `method_map`, or replaces one with the same id;
none is taken out. -/

/-- A line of the method file, without its end. -/
def methodText (method : Nat) (name className : List Char) : List Char :=
  decimal (toInt32 method) ++ ' ' :: (name ++ ' ' :: className)

/-- The line of a method is its text and a line end. -/
theorem print_methodLine (method : Nat) (name className : List Char) :
    (Fragment.methodLine method name className).print =
      methodText method name className ++ ['\n'] := by
  simp [Fragment.print, methodText]

/-- The text of a method has no line ends if its names have none. -/
theorem oneLine_methodText {name className : List Char} (method : Nat) (hname : OneLine name)
    (hclass : OneLine className) : OneLine (methodText method name className) :=
  (numeric_decimal _).oneLine.append ((hname.append (hclass.cons (by decide))).cons (by decide))

/-- A line of the method file gives its method an entry. -/
theorem addMethod_line (methodMap : Int → Option MethodInfo) (method : Nat)
    (name className : List Char) :
    ∃ info, addMethod methodMap (Fragment.methodLine method name className).print =
      some (Function.update methodMap (toInt32 method) (some info)) := by
  have hid : ' ' ∉ decimal (toInt32 method) := (numeric_decimal _).notMem (by decide) (by decide)
  obtain ⟨first, rest, hname⟩ := List.exists_cons_of_ne_nil (List.splitOn_ne_nil ' ' name)
  obtain ⟨second, rest', hclass⟩ :=
    List.exists_cons_of_ne_nil (List.splitOn_ne_nil ' ' (className ++ ['\n']))
  have hread : readInt (decimal (toInt32 method)) = some (toInt32 method) := by
    rw [← List.append_nil (decimal (toInt32 method))]
    exact readInt_decimal _ (by decide)
  unfold addMethod Fragment.print
  dsimp only
  rw [List.splitOn_append_cons_self_of_not_mem hid, List.splitOn_append_cons_self, hname, hclass]
  cases rest with
  | nil =>
      simp only [List.singleton_append]
      rw [hread]
      exact ⟨_, rfl⟩
  | cons third rest =>
      simp only [List.cons_append]
      rw [hread]
      exact ⟨_, rfl⟩

/-- All methods of a method stream have entries. -/
theorem foldlM_addMethod {pieces : List Fragment}
    (hlines : ∀ data ∈ pieces, ∃ method name className,
      data = .methodLine method name className ∧ OneLine name ∧ OneLine className)
    (methodMap : Int → Option MethodInfo) :
    ∃ methodMap', (lines (pieces.flatMap Fragment.print)).foldlM addMethod methodMap =
        some methodMap' ∧
      (∀ mid, methodMap mid ≠ none → methodMap' mid ≠ none) ∧
      ∀ method name className, .methodLine method name className ∈ pieces →
        methodMap' (toInt32 method) ≠ none := by
  induction pieces generalizing methodMap with
  | nil => exact ⟨methodMap, rfl, fun _ h => h, fun _ _ _ h => nomatch h⟩
  | cons data pieces ih =>
      obtain ⟨⟨method, name, className, rfl, hname, hclass⟩, hrest⟩ :=
        List.forall_mem_cons.mp hlines
      obtain ⟨info, hinfo⟩ := addMethod_line methodMap method name className
      obtain ⟨methodMap', hfold, hkeeps, hmethods⟩ :=
        ih hrest (Function.update methodMap (toInt32 method) (some info))
      have hentry : methodMap' (toInt32 method) ≠ none := hkeeps _ (by simp)
      have hline := oneLine_methodText method hname hclass
      refine ⟨methodMap', ?_, fun mid hmid => hkeeps mid ?_, ?_⟩
      · rw [List.flatMap_cons, print_methodLine, List.append_assoc, List.singleton_append,
          lines_append fun h => (hline _ h).1 rfl, List.foldlM_cons, ← print_methodLine, hinfo]
        exact hfold
      · -- an entry is replaced, but stays there
        by_cases hsame : mid = toInt32 method
        · rw [hsame, Function.update_self]
          exact Option.some_ne_none _
        · rw [Function.update_of_ne hsame]
          exact hmid
      · intro method' name' className' hmem
        rcases List.mem_cons.mp hmem with heq | hmem
        · cases heq
          exact hentry
        · exact hmethods _ _ _ hmem

/-- A file of lines is read to its end, and every method that was written has an entry. -/
theorem readMethods_lines {o : Output} (h : MethodLines (some o)) :
    ∃ methodMap, readMethods o.text = some methodMap ∧
      ∀ method ∈ writtenMethods (some o), methodMap (toInt32 method) ≠ none := by
  have hlines := h o rfl
  -- Python reads a carriage return as a line end, so there must be none
  have hreturn : '\r' ∉ o.text := by
    intro hmem
    obtain ⟨data, hdata, hmem⟩ := List.mem_flatMap.mp hmem
    obtain ⟨method, name, className, rfl, hname, hclass⟩ := hlines data hdata
    rw [print_methodLine, List.mem_append] at hmem
    rcases hmem with hmem | hmem
    · exact (oneLine_methodText method hname hclass _ hmem).2 rfl
    · exact absurd hmem (by decide)
  obtain ⟨methodMap, hfold, -, hmethods⟩ := foldlM_addMethod hlines builtinMethods
  refine ⟨methodMap, ?_, fun method hmethod => ?_⟩
  · rw [readMethods, readLines, universalNewlines_of_notMem hreturn]
    exact hfold
  · obtain ⟨data, hdata, hmethod⟩ := List.mem_filterMap.mp hmethod
    obtain ⟨method', name, className, rfl, -, -⟩ := hlines data hdata
    cases hmethod
    exact hmethods _ _ _ hdata

/-- The converter finds every method of a trace file in the method file: every frame has
an entry in `method_map`, and the messages for a trace have one for each frame,
whatever contexts there are already. -/
def NeverDrops (method trace : Output) : Prop :=
  ∃ methodMap traces, readMethods method.text = some methodMap ∧
    readTraces trace.text = some traces ∧ ∀ trace ∈ traces,
      (∀ frame ∈ trace.t, ∃ mid, readInt frame.1 = some mid ∧ methodMap mid ≠ none) ∧
      ∀ leafInFull contexts contextMsgList contexts', BuiltContexts contexts →
        contextMsgs leafInFull methodMap trace.t contexts = some (contextMsgList, contexts') →
        contextMsgList.length = trace.t.length

/-- The converter drops no frame of a thread's files. -/
def DropsNothing (w : AgentThread) : Prop :=
  ∀ method trace, w.tls.current.outputState = some method →
    w.tls.current.outputStateTrace = some trace ∨
      w.tls.current.outputStateCachemiss = some trace →
    NeverDrops method trace

/-- In a known stream every frame has an entry. -/
theorem KnownStream.neverDrops {method trace : Output}
    (hlines : MethodLines (some method))
    (h : KnownStream (writtenMethods (some method)) (some trace)) : NeverDrops method trace := by
  obtain ⟨methodMap, hmap, hmethods⟩ := readMethods_lines hlines
  obtain ⟨-, samples, hwritten, hsamples⟩ := h trace rfl
  -- the parser gives back the samples as they were written
  have hread : readTraces trace.text = some (sampleTraces samples) := by
    rw [Output.text, hwritten]
    exact readTraces_samplePieces fun sample hsample frame hframe =>
      (hsamples sample hsample frame hframe).2
  refine ⟨methodMap, sampleTraces samples, hmap, hread, fun t ht => ?_⟩
  obtain ⟨sample, hsample, rfl⟩ := List.mem_map.mp ht
  have hsample : sample ∈ samples := (List.mem_filter.mp hsample).1
  have hframes : ∀ frame ∈ (sampleTrace sample.1 sample.2).t, ':' ∉ frame.1 ∧
      ∃ mid, readInt frame.1 = some mid ∧ methodMap mid ≠ none := by
    intro frame hframe
    obtain ⟨known, hknown, rfl⟩ := List.mem_map.mp hframe
    have hwritten := (hsamples sample hsample known
      ((List.destutter_sublist _ _).subset hknown)).1
    refine ⟨(numeric_decimal _).notMem (by decide) (by decide), toInt32 known.1, ?_,
      hmethods _ hwritten⟩
    rw [← List.append_nil (decimal (toInt32 known.1))]
    exact readInt_decimal _ (by decide)
  refine ⟨fun frame hframe => (hframes frame hframe).2, ?_⟩
  intro leafInFull contexts contextMsgList contexts' hbuilt hmsgs
  exact (contextMsgs_complete hbuilt.ok (fun frame hframe => (hframes frame hframe).1)
    (fun frame hframe => (hframes frame hframe).2) hmsgs).1

/-- What the converter relies on: the streams fit together and hold text of lines. -/
structure Readable (w : AgentThread) : Prop where
  recorded : Recorded w.tls.streams w.user.locals
  lines : MethodLines w.tls.streams.method
  sites : OneLineSites w.user.globals

/-- A readable thread loses no frame in the converter. -/
theorem Readable.dropsNothing {w : AgentThread} (h : Readable w) : DropsNothing w := by
  intro method trace hmethod htrace
  have hlines : MethodLines (some method) := hmethod ▸ h.lines
  have hmethods : writtenMethods (some method) = w.user.locals.methodIdList.elems :=
    hmethod ▸ h.recorded.written
  refine KnownStream.neverDrops hlines ?_
  rw [hmethods]
  rcases htrace with htrace | htrace
  · exact htrace ▸ h.recorded.trace
  · exact htrace ▸ h.recorded.cachemiss

/-- Without a stream there are no lines. -/
theorem methodLines_none : MethodLines none := by
  intro o ho
  cases ho

/-- A frame of `MethodEntry` writes a line when the names are in one line. -/
theorem MethodLines.frame {o : Output} {v : Variables} {frame : Frame × Nat}
    {q : Output × Variables} (h : MethodLines (some o) ∧ OneLineSites v.globals)
    (hname : OneLine frame.1.methodName) (hclass : OneLine frame.1.classSignature)
    (hframe : methodEntryFrame (o, v) frame = .ok q) :
    MethodLines (some q.1) ∧ OneLineSites q.2.globals := by
  obtain ⟨scope, -, ⟨-, rfl⟩ | ⟨-, o', ho', rfl⟩⟩ := methodEntryFrame_cases hframe
  · exact h
  · refine ⟨fun o'' ho'' data hdata => ?_, h.2⟩
    cases ho''
    rcases Output.mem_writef ho' hdata with hdata | rfl
    · exact h.1 o rfl data hdata
    · exact ⟨_, _, _, rfl, hname, h.2.info.append ((oneLine_className hclass).append oneLine_java)⟩

/-- The step lemma, for events with names in one line. -/
theorem Readable.step {env : AgentEnv} {mask : Nat} {event : ThreadEvent} {w w' : AgentThread}
    (hw : Readable w) (hnames : event.OneLineNames) (h : event.step env mask w = .ok w') :
    Readable w' := by
  have hrec := (hw.recorded.step h).1
  cases event with
  | threadStart answers =>
      obtain ⟨hstreams, huser⟩ := threadStart_eq h
      refine ⟨hrec, ?_, ?_⟩
      · rw [hstreams]
        intro o ho data hdata
        rw [← Option.some.inj ho, newOutput_written] at hdata
        cases hdata
      · rw [huser]
        exact hw.sites
  | methodEntry stackTrace =>
      -- the only event that writes to the method stream
      obtain ⟨hstreams, huser⟩ | ⟨o, frames, q, hout, rfl, hloop, hstreams, huser⟩ :=
        methodEntry_cases h
      · exact ⟨hrec, hstreams ▸ hw.lines, huser ▸ hw.sites⟩
      · have hstart : MethodLines (some o) ∧ OneLineSites w.user.clearCallpath.globals :=
          ⟨hout ▸ hw.lines, hw.sites⟩
        have hend : MethodLines (some q.1) ∧ OneLineSites q.2.globals := by
          refine foldlM_preserves (P := fun q => MethodLines (some q.1) ∧ OneLineSites q.2.globals)
            (fun frame hframe q q' hq hstep => ?_) hstart hloop
          have hmem : frame.1 ∈ frames := List.fst_mem_of_mem_zipIdx (List.mem_reverse.mp hframe)
          exact MethodLines.frame hq (hnames _ hmem).1 (hnames _ hmem).2 hstep
        refine ⟨hrec, ?_, ?_⟩
        · rw [hstreams]
          exact hend.1
        · rw [huser]
          exact hend.2
  | signal fuel siginfo =>
      obtain ⟨-, hmethod, huser⟩ := perfEventHandler_frame hw.recorded h
      refine ⟨hrec, ?_, ?_⟩
      · rw [show w'.tls.streams.method = _ from hmethod]
        exact hw.lines
      · rw [show w'.user = _ from huser]
        exact hw.sites
  | kernel k =>
      cases h
      exact ⟨hrec, hw.lines, hw.sites⟩
  | sites event =>
      obtain ⟨g, hg, rfl⟩ := map_eq_ok.mp h
      exact ⟨hrec, hw.lines, hw.sites.step hnames hg⟩

/-- A thread that is not started has nothing to read. -/
theorem readable_newThread {tid : Nat} (htid : tid < 2 ^ 32) : Readable (newThread tid) := by
  refine ⟨recorded_newThread htid, methodLines_none, ?_, ?_⟩
  · intro c hc
    cases hc
  · intro str hstr
    cases hstr

/-- **Methods of samples.** Whatever happens to a thread, every method in its trace and
cachemiss streams was written to its method stream before, and no method was written twice
since the thread was started; and if the VM's names have no line ends in them, the converter
drops no frame. -/
theorem traced_methods_written (env : AgentEnv) (mask tid : Nat) (htid : tid < 2 ^ 32)
    (events : List ThreadEvent) :
    AlwaysStep (fun w (event : ThreadEvent) w' => event.step env mask w = .ok w') WrittenBefore
        (newThread tid) events ∧
      ((∀ event ∈ events, event.OneLineNames) →
        AlwaysStep (fun w (event : ThreadEvent) w' => event.step env mask w = .ok w')
          (fun _ w' => DropsNothing w') (newThread tid) events) := by
  constructor
  · exact alwaysStep_of_invariant (I := fun w => Recorded w.tls.streams w.user.locals)
      (fun event _ w w' hw h => hw.step h) (recorded_newThread htid)
  · intro hnames
    refine alwaysStep_of_invariant (I := Readable) (fun event hevent w w' hw h => ?_)
      (readable_newThread htid)
    have hw' := hw.step (hnames event hevent) h
    exact ⟨hw', hw'.dropsNothing⟩

/-- A thread is started, enters a method and takes a sample. -/
def oneMethodEvents : List ThreadEvent :=
  [.threadStart plainAnswers,
    .methodEntry (some [⟨16, 0, "f".toList, "La/B;".toList, none⟩]),
    .kernel sampledKernel,
    .signal 2 ⟨1, 10⟩]

/-- The method gets its line before the sample is written, and the converter drops nothing. -/
theorem traced_methods_written_one_method :
    ∃ w₁ w₂ w₃ w₄, (ThreadEvent.threadStart plainAnswers).step ⟨genericEnv, [cycles]⟩ 4095
        (newThread 7) = .ok w₁ ∧
      (ThreadEvent.methodEntry (some [⟨16, 0, "f".toList, "La/B;".toList, none⟩])).step
        ⟨genericEnv, [cycles]⟩ 4095 w₁ = .ok w₂ ∧
      (ThreadEvent.kernel sampledKernel).step ⟨genericEnv, [cycles]⟩ 4095 w₂ = .ok w₃ ∧
      (ThreadEvent.signal 2 ⟨1, 10⟩).step ⟨genericEnv, [cycles]⟩ 4095 w₃ = .ok w₄ ∧
      writtenMethods w₂.tls.current.outputState = [16] ∧
      tracedMethods w₄.tls.current.outputStateTrace = [16] ∧
      tracedMethods w₄.tls.current.outputStateCachemiss = [16] ∧
      WrittenBefore w₁ w₂ ∧ WrittenBefore w₃ w₄ ∧ DropsNothing w₂ ∧ DropsNothing w₄ := by
  obtain ⟨hwritten, hdrops⟩ := traced_methods_written ⟨genericEnv, [cycles]⟩ 4095 7 (by decide)
    oneMethodEvents
  have hnames : ∀ event ∈ oneMethodEvents, event.OneLineNames := by
    unfold oneMethodEvents ThreadEvent.OneLineNames
    simp only [List.forall_mem_cons, List.not_mem_nil, false_imp_iff, implies_true, and_true,
      true_and]
    decide
  refine ⟨_, _, _, _, rfl, rfl, rfl, rfl, rfl, rfl, rfl, ?_, ?_, ?_, ?_⟩
  · exact ((hwritten _ rfl).2 _ rfl).1
  · exact ((((hwritten _ rfl).2 _ rfl).2 _ rfl).2 _ rfl).1
  · exact ((hdrops hnames _ rfl).2 _ rfl).1
  · exact ((((hdrops hnames _ rfl).2 _ rfl).2 _ rfl).2 _ rfl).1

end DroidPerf
