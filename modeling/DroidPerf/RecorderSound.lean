import DroidPerf.Recorder
import DroidPerf.ThreadEndSound
import DroidPerf.LineSizeSound

/-!
# DroidPerf.RecorderSound

The agent records what the recorder does: every run of a process is a run of the recorder that
saw the same events (`session_recorded`).

The relation between the two is `Recorder.Describes`, thread by thread
(`RecordedThread.Describes`): the streams of the thread are those that print the pieces of its
recording, the variables `callpath_vec` and `object_alloc_counter` are the recorder's, and the
methods that have a row are those in the thread's set. It is proved to be kept event by event.

* A callback that writes appends pieces to one stream. As `streamWith` is a fold over the
  pieces, one lemma (`writeAll_streamWith`) turns what `writef` did into pieces that were
  appended, and the recorder's step appends the same ones.
* A signal is the handler with all its exits. It does not look at what its callback does with a
  sample, so it goes the same way when the callback only counts (`drainLoop_counts`,
  `perfEventHandler_counts`). This number, `signalSamples`, is what the recorder is told; each
  of the counted calls then adds one sample to the recording (`Describes.constructContext`).
* `MethodEntry` and `ObjectAllocCallback` loop over the frames of a stack. Their loops have an
  invariant each, `EntryState` and the statement of `allocFrames_output`.
* Everything else a callback touches (the flag, the perf state, the TLS of a thread without
  context) is outside of `Tls.recorded`, and the simp lemmas about that say so.

`Describes.step` puts the callbacks together, and the simulation of runs is
`specRun_of_foldlM`.
-/

namespace DroidPerf

open Text

/-! ### Streams

A stream of the recorder is a new stream to which pieces were written. What the agent writes
into such a stream makes another one of this kind, with more pieces. -/

section Stream

variable {kind : OutputKind} {tid : Nat} {pieces : List Fragment} {o : Output}

/-- Pieces can be written in two goes. -/
theorem streamWith_append (kind : OutputKind) (tid : Nat) (pieces pieces' : List Fragment) :
    streamWith kind tid (pieces ++ pieces') =
      pieces'.foldl Output.writeb (streamWith kind tid pieces) := List.foldl_append

/-- A text that `writef` has passed is written like any other. -/
theorem writef_eq_writeb {o o' : Output} {data : Fragment} (h : o.writef data = .ok o') :
    o' = o.writeb data := by
  obtain ⟨-, -, h⟩ := bind_eq_ok.mp h
  exact (Except.ok.inj h).symm

/-- A text that fits the local buffer is appended as one piece. -/
theorem writef_streamWith {data : Fragment} (h : (streamWith kind tid pieces).writef data = .ok o) :
    o = streamWith kind tid (pieces ++ [data]) := by
  rw [writef_eq_writeb h, streamWith_append]
  rfl

/-- Texts that are written one after another are appended in this order. -/
theorem writeAll_streamWith {fragments : List Fragment}
    (h : (streamWith kind tid pieces).writeAll fragments = .ok o) :
    o = streamWith kind tid (pieces ++ fragments) := by
  induction fragments generalizing pieces with
  | nil =>
      cases h
      rw [List.append_nil]
  | cons data fragments ih =>
      rw [Output.writeAll_cons] at h
      obtain ⟨o₁, hdata, h⟩ := bind_eq_ok.mp h
      rw [writef_streamWith hdata] at h
      rw [ih h, List.append_assoc, List.singleton_append]

end Stream

/-! ### The samples of a signal

The handler reads the ring and hands each sample to its callback. Which records it reads, and
where it stops, depends on the ring alone, so the number of samples can be found with a
callback that counts. `P n` says of the callback's state that it was called `n` times. -/

section Signal

variable {σ : Type} {mask sampleType fuel : Nat} {siginfo : SigInfo} {w w' : AgentThread}

/-- For the generic client a sample is a call path with the memory in use. -/
theorem onSample_generic {env : ProfilerEnv} {id : Nat} {d : PerfSampleData} {a b c : Int}
    {t : AgentTls} {v : Variables} {s' : AgentTls × Variables} (hclient : env.clientName = generic)
    (h : onSample env id d a b c (t, v) = .ok s') : ∃ t',
      constructContext v.locals.callpathVec v.globals.activeMemoryUsage t = .ok t' ∧
        s' = (t', v) := by
  simp only [onSample, hclient, ne_eq, not_true_eq_false, false_and, and_false, if_false,
    if_true] at h
  split at h
  · cases h
  · obtain ⟨t', hcontext, h⟩ := bind_eq_ok.mp h
    cases h
    exact ⟨t', hcontext, rfl⟩

/-- For other clients `OnSample` does nothing. -/
theorem onSample_other {env : ProfilerEnv} {id : Nat} {d : PerfSampleData} {a b c : Int}
    {s s' : AgentTls × Variables} (hclient : env.clientName ≠ generic)
    (h : onSample env id d a b c s = .ok s') : s' = s := by
  obtain ⟨t, v⟩ := s
  simp only [onSample] at h
  split at h
  · cases h
    rfl
  split at h
  · cases h
    rfl
  split at h
  · cases h
  · cases h
    rfl

/-- A record is a sample or it is not: the callback is told of it, or it is skipped. -/
theorem drainRecord_counts {cb : PerfSampleData → σ → Except Fault σ} {P : Nat → σ → Prop}
    (hcb : ∀ d n s s', P n s → cb d s = .ok s' → P (n + 1) s') {ehdr : PerfEventHeader}
    {m m' : PerfMmap} {s s' : σ} {n : Nat} (hs : P n s)
    (h : drainRecord mask sampleType cb ehdr m s = .ok (m', s')) :
    ∃ n', drainRecord mask sampleType (fun _ n => .ok (n + 1)) ehdr m n = .ok (m', n') ∧
      P n' s' := by
  unfold drainRecord at h ⊢
  split at h
  · rename_i htype
    rw [if_pos htype]
    split at h
    · cases h
    · rename_i d m₁ hread
      obtain ⟨s₁, hcall, h⟩ := map_eq_ok.mp h
      cases h
      exact ⟨n + 1, rfl, hcb d n s s' hs hcall⟩
  · rename_i htype
    rw [if_neg htype]
    split at h
    · rename_i hsize
      cases h
      rw [if_pos hsize]
      exact ⟨n, rfl, hs⟩
    · rename_i hsize
      cases h
      rw [if_neg hsize]
      exact ⟨n, rfl, hs⟩

/-- A loop that counts the samples goes the same way, and counts what the callback is told. -/
theorem drainLoop_counts {cb : PerfSampleData → σ → Except Fault σ} {P : Nat → σ → Prop}
    (hcb : ∀ d n s s', P n s → cb d s = .ok s' → P (n + 1) s') {m m' : PerfMmap} {s s' : σ}
    {n : Nat} (hs : P n s) (h : drainLoop mask sampleType cb fuel m s = .ok (m', s')) :
    ∃ n', drainLoop mask sampleType (fun _ n => .ok (n + 1)) fuel m n = .ok (m', n') ∧
      P n' s' := by
  induction fuel generalizing m s n with
  | zero => cases h
  | succ fuel ih =>
      -- the way through an iteration depends on the ring alone
      rw [drainLoop] at h ⊢
      dsimp only at h ⊢
      split at h
      · rename_i hsome
        rw [if_pos hsome]
        split at h
        · rename_i hless
          cases h
          rw [if_pos hless]
          exact ⟨n, rfl, hs⟩
        · rename_i hless
          rw [if_neg hless]
          split at h
          · cases h
          · rename_i ehdr m₁ hheader
            obtain ⟨⟨m₂, s₂⟩, hrecord, h⟩ := bind_eq_ok.mp h
            obtain ⟨n₂, hcount, hs₂⟩ := drainRecord_counts hcb hs hrecord
            rw [hcount, ok_bind]
            exact ih hs₂ h
      · rename_i hnone
        cases h
        rw [if_neg hnone]
        exact ⟨n, rfl, hs⟩

/-- The event whose ring is drained is the one that the signal is about. -/
theorem drainEvent_counts {cb : SampleCb Unit Output Variables}
    {P : Nat → AgentTls × Variables → Prop}
    (hcb : ∀ id d a b c n s s', P n s → cb id d a b c s = .ok s' → P (n + 1) s')
    {current : PerfEventThread} (hw : P 0 (w.tls, w.user))
    (h : drainEvent mask (some cb) fuel current w = .ok w') :
    P (ringSamples mask fuel current w.kernel) (w'.tls, w'.user) := by
  unfold drainEvent at h
  dsimp only at h
  split at h
  · cases h
  · rename_i buf hbuf
    split at h
    · cases h
    · rename_i fd m hring
      obtain ⟨⟨m', tls, user⟩, hloop, h⟩ := bind_eq_ok.mp h
      cases h
      obtain ⟨n, hcount, hend⟩ :=
        drainLoop_counts (fun d n s s' => hcb _ d _ _ _ n s s') hw hloop
      have hsamples : ringSamples mask fuel current w.kernel = n := by
        simp [ringSamples, hbuf, hring, hcount]
      rw [hsamples]
      exact hend

/-- Stopping and restarting events leaves what is in their rings. -/
theorem ioctlAll_rings (request : IoctlRequest) (fds : List Int) (k : Kernel) :
    (ioctlAll request fds k).2.rings = k.rings := by
  induction fds generalizing k with
  | nil => rfl
  | cons fd fds ih =>
      rw [ioctlAll]
      split
      · exact ih k
      · split
        · rfl
        · rename_i k₁ hio
          obtain ⟨on, -, rfl⟩ := ioctl_eq_some hio
          exact ih _

/-- A signal has as many samples after the events were stopped as before. -/
theorem ringSamples_perfStopAll (mask fuel : Nat) (current : PerfEventThread)
    (eventThreadList : List PerfEventThread) (k : Kernel) :
    ringSamples mask fuel current (perfStopAll eventThreadList k).2 =
      ringSamples mask fuel current k := by
  unfold ringSamples perfStopAll
  rw [ioctlAll_rings]

/-- A handler that returns has told the callback about the samples of the signal, one by one.
Entering and leaving the handler sets a flag only, so `henter` and `hexit` are about that flag;
the cases are the handler's exits, and only the last one reads the ring. -/
theorem perfEventHandler_counts {cb : SampleCb Unit Output Variables}
    {P : Nat → AgentTls × Variables → Prop}
    (henter : ∀ t v, P 0 (t, v) → P 0 ((profilerSafeEnter t).2, v))
    (hexit : ∀ n t v, P n (t, v) → P n (profilerSafeExit t, v))
    (hcb : ∀ id d a b c n s s', P n s → cb id d a b c s = .ok s' → P (n + 1) s')
    (hw : P 0 (w.tls, w.user))
    (h : perfEventHandler mask (some cb) fuel siginfo w = .ok w') :
    P (signalSamples mask fuel siginfo w) (w'.tls, w'.user) := by
  have hentered := henter _ _ hw
  unfold perfEventHandler at h
  dsimp only at h
  rw [profilerSafeEnter_fst, Bool.not_not] at h
  unfold signalSamples
  split at h
  · -- the signal came while the thread was inside the agent
    rename_i hin
    cases h
    rw [if_pos (.inl hin)]
    exact hentered
  · rename_i hin
    rw [current_profilerSafeEnter] at h
    dsimp only at h
    cases hperf : w.tls.current.perfState with
    | none =>
        rw [hperf] at h
        cases h
        rw [Option.bind_none, ite_self]
        exact hentered
    | some eventThreadList =>
        rw [hperf] at h
        dsimp only at h
        obtain ⟨-, -, h⟩ := bind_eq_ok.mp h
        rw [Option.bind_some]
        split at h
        · -- the code of the signal is not one of those for new data
          rename_i hcode
          rw [if_pos (.inr hcode)]
          exact resumeSampling_preserves (P := P 0) (hexit 0) hentered h
        · rename_i hcode
          rw [if_neg (not_or.mpr ⟨hin, hcode⟩)]
          cases hfind : findEvent eventThreadList siginfo.siFd with
          | none =>
              -- no event of the thread has the descriptor
              rw [hfind] at h
              obtain ⟨-, -, h⟩ := bind_eq_ok.mp h
              exact resumeSampling_preserves (P := P 0) (hexit 0) hentered h
          | some current =>
              rw [hfind] at h
              obtain ⟨w₁, hdrain, h⟩ := bind_eq_ok.mp h
              obtain ⟨-, -, h⟩ := bind_eq_ok.mp h
              have hdrained := drainEvent_counts hcb hentered hdrain
              dsimp only at hdrained
              rw [ringSamples_perfStopAll] at hdrained
              refine resumeSampling_preserves (P := P (ringSamples mask fuel current w.kernel))
                (hexit _) ?_ h
              exact hdrained

end Signal

/-! ### The record of a thread

Of all that the agent keeps for a thread the recorder tells about the streams, and about
whether there is a context. The flag that keeps signals out is not part of it. -/

/-- The part of a thread's record that the recorder tells about. -/
def Tls.recorded (t : AgentTls) : Option Unit × ThreadOutput := (t.current.contextState, t.output)

/-- Entering the profiler changes nothing of it. -/
@[simp] theorem recorded_profilerSafeEnter (t : AgentTls) :
    (profilerSafeEnter t).2.recorded = t.recorded := by
  cases h : t.slot <;>
    simp [Tls.recorded, Tls.output, profilerSafeEnter, threadDataGet, threadDataAlloc, Tls.current,
      Tls.update, h]

/-- Leaving the profiler changes nothing of it. -/
@[simp] theorem recorded_profilerSafeExit (t : AgentTls) :
    (profilerSafeExit t).recorded = t.recorded := by
  simp [Tls.recorded, Tls.output, profilerSafeExit]

/-- To look the record up, which may allocate one, changes nothing of it. -/
@[simp] theorem recorded_threadDataGet (t : AgentTls) :
    (threadDataGet t).2.recorded = t.recorded := by
  cases h : t.slot <;>
    simp [Tls.recorded, Tls.output, threadDataGet, threadDataAlloc, Tls.current, h]

/-- Blocking samples changes nothing of it. -/
@[simp] theorem recorded_blockSample (w : AgentThread) :
    (blockSample w).tls.recorded = w.tls.recorded := by
  simp [Tls.recorded, Tls.output, blockSample]

/-- Allowing samples again changes nothing of it. -/
@[simp] theorem recorded_unblockSample (w : AgentThread) :
    (unblockSample w).tls.recorded = w.tls.recorded := by
  simp [Tls.recorded, Tls.output, unblockSample]

namespace RecordedThread

/-- A thread of the agent is a thread of the recorder. The streams are given by the recording
(`outputOf`); the thread's set of methods is the list of those that have a row, in the same
order. -/
structure Describes (t : RecordedThread) (tid : Nat) (tls : AgentTls) (v : ThreadLocals) :
    Prop where
  record : tls.recorded = (t.live.map fun _ => (), outputOf tid t.live)
  stack : v.callpathVec = t.stack
  counter : v.objectAllocCounter = t.counter
  methods : ∀ r, t.live = some r → v.methodIdList.elems = r.rows.map MethodRow.method

section Thread

variable {t : RecordedThread} {tid : Nat} {tls tls' : AgentTls} {v : ThreadLocals}
  {w w' : AgentThread} {env : AgentEnv}

/-- The relation is about the recorded part only. -/
theorem Describes.congr (h : t.Describes tid tls v) (htls : tls'.recorded = tls.recorded) :
    t.Describes tid tls' v :=
  ⟨htls.trans h.record, h.stack, h.counter, h.methods⟩

/-- A thread has a context exactly while it is live. -/
theorem Describes.context (h : t.Describes tid tls v) :
    tls.current.contextState = t.live.map fun _ => () := congrArg Prod.fst h.record

/-- The streams of a thread are those of its recording. -/
theorem Describes.output (h : t.Describes tid tls v) : tls.output = outputOf tid t.live :=
  congrArg Prod.snd h.record

/-! ### Samples

A sample takes the call path of the thread as the last `MethodEntry` has left it, and writes it
to both sample streams. A thread without context gives none. -/

/-- To take no samples changes nothing. -/
@[simp] theorem sample_zero (t : RecordedThread) (usage : Nat) : t.sample usage 0 = t := by
  cases t with
  | mk stack counter live => cases live <;> simp [sample]

/-- Nothing is recorded on a thread that is not live. -/
theorem sample_of_none (h : t.live = none) (usage taken : Nat) : t.sample usage taken = t := by
  cases t with
  | mk stack counter live =>
      cases h
      rfl

/-- Samples are taken one by one. -/
theorem sample_succ (t : RecordedThread) (usage taken : Nat) :
    t.sample usage (taken + 1) = (t.sample usage taken).sample usage 1 := by
  cases t with
  | mk stack counter live => cases live <;> simp [sample, List.replicate_succ']

/-- The streams of a thread that is traced. -/
theorem Describes.tracing {r : Recording} (h : t.Describes tid tls v) (hlive : t.live = some r) :
    Tracing tls (streamWith .trace tid (r.pieces .trace))
      (streamWith .cachemiss tid (r.pieces .cachemiss)) := by
  have hcontext := h.context
  have houtput := h.output
  rw [hlive] at hcontext houtput
  exact ⟨hcontext, congrArg ThreadOutput.trace houtput, congrArg ThreadOutput.cachemiss houtput⟩

/-- **One sample.** What `constructContext` writes is what the recorder adds to the recording. -/
theorem Describes.constructContext {usage : Nat} (h : t.Describes tid tls v)
    (hsample : constructContext v.callpathVec usage tls = .ok tls') :
    (t.sample usage 1).Describes tid tls' v := by
  cases hlive : t.live with
  | none =>
      -- a thread that was not started, or has ended, takes no sample
      have hcontext := h.context
      rw [hlive] at hcontext
      unfold DroidPerf.constructContext at hsample
      rw [hcontext] at hsample
      cases hsample
      rw [sample_of_none hlive]
      exact h.congr (recorded_threadDataGet tls)
  | some r =>
      rw [constructContext_eq (h.tracing hlive), h.stack] at hsample
      obtain ⟨trace, htrace, hsample⟩ := bind_eq_ok.mp hsample
      obtain ⟨cachemiss, hcachemiss, hsample⟩ := bind_eq_ok.mp hsample
      cases hsample
      have hrecord := h.record
      rw [hlive] at hrecord
      refine ⟨?_, h.stack, h.counter, ?_⟩
      · rw [writeAll_streamWith htrace, writeAll_streamWith hcachemiss]
        have hcontext := congrArg Prod.fst hrecord
        have houtput := congrArg Prod.snd hrecord
        simp only [Tls.recorded, Tls.output, outputOf, Option.map_some, ThreadOutput.mk.injEq]
          at hcontext houtput
        simp [Tls.recorded, Tls.output, Tls.withTraces, sample, hlive, outputOf, Recording.pieces,
          samplePieces, TakenSample.trace, TakenSample.cachemiss, hcontext, houtput]
      · intro r' hr'
        simp only [sample, hlive, Option.map_some, Option.some.injEq] at hr'
        rw [← hr']
        exact h.methods r hlive

/-- The samples of a signal are recorded by the generic client; the variables stay what they
were. -/
theorem Describes.signal {profiler : ProfilerEnv} {mask fuel : Nat} {siginfo : SigInfo}
    (h : t.Describes tid w.tls w.user.locals)
    (hsignal : perfEventHandler mask (some (onSample profiler)) fuel siginfo w = .ok w') :
    w'.user = w.user ∧ (t.sample w.user.globals.activeMemoryUsage
      (if profiler.clientName = generic then signalSamples mask fuel siginfo w else 0)).Describes
        tid w'.tls w'.user.locals := by
  refine perfEventHandler_counts (P := fun n q => q.2 = w.user ∧
    (t.sample w.user.globals.activeMemoryUsage
      (if profiler.clientName = generic then n else 0)).Describes tid q.1 q.2.locals) ?_ ?_ ?_ ?_
    hsignal
  · -- entering the handler
    intro tls v hq
    obtain ⟨hv, hdescribes⟩ := hq
    exact ⟨hv, hdescribes.congr (recorded_profilerSafeEnter tls)⟩
  · -- leaving it
    intro n tls v hq
    obtain ⟨hv, hdescribes⟩ := hq
    exact ⟨hv, hdescribes.congr (recorded_profilerSafeExit tls)⟩
  · -- one call of the callback
    intro id d a b c n q q' hq hsample
    obtain ⟨tls, v⟩ := q
    obtain ⟨hv, hdescribes⟩ := hq
    have hv : v = w.user := hv
    subst hv
    by_cases hclient : profiler.clientName = generic
    · obtain ⟨tls', hcontext, rfl⟩ := onSample_generic hclient hsample
      rw [if_pos hclient] at hdescribes ⊢
      rw [sample_succ]
      exact ⟨rfl, hdescribes.constructContext hcontext⟩
    · rw [onSample_other hclient hsample]
      rw [if_neg hclient] at hdescribes ⊢
      exact ⟨rfl, hdescribes⟩
  · exact ⟨rfl, by simpa using h⟩

/-! ### Starting and ending

`ThreadStart` opens the four streams and begins a recording; `ThreadEnd` deletes them, and the
thread is not live any more. -/

/-- A thread that is started begins an empty recording. -/
theorem Describes.threadStart {answers : Nat → Fin 8 → SetupAnswers}
    (htid : w.tls.gettid = tid) (hstart : runCallback env (.threadStart answers) w = .ok w') :
    w'.user.globals = w.user.globals ∧ started.Describes tid w'.tls w'.user.locals := by
  obtain ⟨hgettid, huser, perfState, hcurrent⟩ := threadStart_record hstart
  refine ⟨by rw [huser], ?_, by rw [huser]; rfl, by rw [huser]; rfl, ?_⟩
  · rw [Tls.recorded, Tls.output, hgettid, hcurrent, htid]
    rfl
  · intro r hr
    cases hr
    rw [huser]
    rfl

/-- A thread that ends keeps its variables, but not its recording. -/
theorem Describes.threadEnd (h : t.Describes tid w.tls w.user.locals)
    (hend : runCallback env .threadEnd w = .ok w') :
    w'.user = w.user ∧
      RecordedThread.Describes { t with live := none } tid w'.tls w'.user.locals := by
  obtain ⟨w₁, hbody, hend⟩ := bind_eq_ok.mp hend
  cases hend
  rw [Callback.body, runStmts_threadEnd] at hbody
  obtain ⟨tls, hdealloc, rfl⟩ := map_eq_ok.mp hbody
  rw [threadDataDealloc_eq hdealloc]
  refine ⟨rfl, ?_, h.stack, h.counter, fun r hr => by cases hr⟩
  have htid : w.tls.gettid = tid := congrArg ThreadOutput.tid h.output
  have hgettid : (threadDataGet (blockSample w).tls).2.gettid = tid :=
    (congrArg (fun p => p.2.tid) (recorded_threadDataGet (blockSample w).tls)).trans
      ((congrArg (fun p => p.2.tid) (recorded_blockSample w)).trans htid)
  rw [recorded_unblockSample]
  show (none, ThreadOutput.mk _ none none none none) = _
  rw [hgettid]
  rfl

/-! ### Method entries

`MethodEntry` makes the call path anew from the stack trace and writes a row for each method
that has none. A method of the trace is in the set from then on, so it gets its row once. -/

/-- The stream and the variables while `MethodEntry` runs over the frames: the loop invariant.
The recording `r` and the path grow with the frames; the rest is what it was. -/
structure EntryState (tid : Nat) (r : Recording) (path : List (Nat × List Char)) (v : Variables)
    (q : Output × Variables) : Prop where
  output : q.1 = streamWith .method tid (r.pieces .method)
  methods : q.2.locals.methodIdList.elems = r.rows.map MethodRow.method
  path : q.2.locals.callpathVec = path
  counter : q.2.locals.objectAllocCounter = v.locals.objectAllocCounter
  globals : q.2.globals = v.globals

/-- The step of the loop: one frame keeps the two in step. -/
theorem EntryState.frame {r : Recording} {path : List (Nat × List Char)} {v : Variables}
    {q q' : Output × Variables} {frame : Frame × Nat} (h : EntryState tid r path v q)
    (hframe : methodEntryFrame q frame = .ok q') :
    EntryState tid (r.enter v.globals.objectInfo frame.1)
      (path ++ [(frame.1.method, entryScope frame.1 frame.2)]) v q' := by
  obtain ⟨o, v'⟩ := q
  obtain ⟨frame, i⟩ := frame
  obtain ⟨houtput, hmethods, hpath, hcounter, hglobals⟩ := h
  dsimp only at houtput hmethods hpath hcounter hglobals
  unfold methodEntryFrame at hframe
  dsimp only at hframe
  unfold Recording.enter
  split at hframe
  · -- the method is in the set of the thread, and so it has a row
    rename_i hmem
    cases hframe
    rw [hmethods] at hmem
    rw [if_pos hmem]
    exact ⟨houtput, hmethods, by rw [hpath], hcounter, hglobals⟩
  · rename_i hmem
    obtain ⟨o', hwrite, hframe⟩ := bind_eq_ok.mp hframe
    cases hframe
    have hnew := ListSet.elems_insert_of_notMem hmem
    rw [hmethods] at hmem
    rw [if_neg hmem]
    rw [houtput, hglobals] at hwrite
    refine ⟨?_, ?_, by rw [hpath], hcounter, hglobals⟩
    · rw [writef_streamWith hwrite]
      simp [Recording.pieces, Recording.row]
    · rw [hnew, hmethods, List.map_append]
      rfl

/-- The loop keeps the two in step, by induction on the frames. -/
theorem EntryState.frames {r : Recording} {path : List (Nat × List Char)} {v : Variables}
    {q q' : Output × Variables} {frames : List (Frame × Nat)} (h : EntryState tid r path v q)
    (hframes : frames.foldlM methodEntryFrame q = .ok q') :
    EntryState tid ((frames.map Prod.fst).foldl (Recording.enter v.globals.objectInfo) r)
      (path ++ frames.map fun frame => (frame.1.method, entryScope frame.1 frame.2)) v q' := by
  induction frames generalizing q r path with
  | nil =>
      cases hframes
      simpa using h
  | cons frame frames ih =>
      rw [List.foldlM_cons] at hframes
      obtain ⟨q₁, hframe, hframes⟩ := bind_eq_ok.mp hframes
      simpa using ih (h.frame hframe) hframes

/-- A method that is entered adds neither samples nor allocations. -/
theorem enter_other (objectInfo : List Char) (r : Recording) (frame : Frame) :
    (r.enter objectInfo frame).samples = r.samples ∧
      (r.enter objectInfo frame).allocs = r.allocs := by
  unfold Recording.enter
  split <;> exact ⟨rfl, rfl⟩

/-- Rows are all that a method entry adds to a recording. -/
theorem enterAll_other (objectInfo : List Char) (frames : List Frame) (r : Recording) :
    (r.enterAll objectInfo frames).samples = r.samples ∧
      (r.enterAll objectInfo frames).allocs = r.allocs := by
  unfold Recording.enterAll
  induction frames.reverse generalizing r with
  | nil => exact ⟨rfl, rfl⟩
  | cons frame frames ih =>
      obtain ⟨hsamples, hallocs⟩ := ih (r.enter objectInfo frame)
      obtain ⟨hsamples', hallocs'⟩ := enter_other objectInfo r frame
      exact ⟨hsamples.trans hsamples', hallocs.trans hallocs'⟩

/-- The streams of a thread that is traced, with another method stream. -/
theorem Describes.withMethod {r : Recording} {o : Output} (h : t.Describes tid tls v)
    (hlive : t.live = some r) : (tls.update fun td => { td with outputState := some o }).recorded =
      (some (), { outputOf tid (some r) with method := some o }) := by
  have hcontext := h.context
  have houtput := h.output
  rw [hlive] at hcontext houtput
  simp only [Tls.output, outputOf, Option.map_some, ThreadOutput.mk.injEq] at hcontext houtput
  simp [Tls.recorded, Tls.output, outputOf, hcontext, houtput]

/-- `MethodEntry` on a thread that is live: what the loop does to the stream and to the
variables is what the recorder does to the recording. -/
theorem Describes.methodEntry_live {r : Recording} {frames : List Frame}
    (h : t.Describes tid w.tls w.user.locals) (hlive : t.live = some r)
    (hentry : runCallback env (.methodEntry (some frames)) w = .ok w') :
    w'.user.globals = w.user.globals ∧ RecordedThread.Describes { t with
      stack := entryPath frames
      live := some (r.enterAll w.user.globals.objectInfo frames) } tid w'.tls w'.user.locals := by
  have hmethod := congrArg ThreadOutput.method h.output
  rw [hlive] at hmethod
  rw [methodEntry_eq hmethod] at hentry
  obtain ⟨q, hloop, rfl⟩ := map_eq_ok.mp hentry
  have hstart : EntryState tid r [] w.user.clearCallpath
      (streamWith .method tid (r.pieces .method), w.user.clearCallpath) :=
    ⟨rfl, h.methods r hlive, rfl, rfl, rfl⟩
  have hend := hstart.frames hloop
  rw [map_fst_zipIdx_reverse, List.nil_append] at hend
  have houtput : q.1 = streamWith .method tid
      ((r.enterAll w.user.globals.objectInfo frames).pieces .method) := hend.output
  obtain ⟨hsamples, hallocs⟩ := enterAll_other w.user.globals.objectInfo frames r
  refine ⟨hend.globals, ?_, hend.path, hend.counter.trans h.counter, ?_⟩
  · rw [recorded_unblockSample, (h.congr (recorded_blockSample w)).withMethod hlive, houtput]
    simp [outputOf, Recording.pieces, hsamples, hallocs]
  · intro r' hr'
    cases hr'
    exact hend.methods

/-- `MethodEntry` on any thread, with a stack trace or without. -/
theorem Describes.methodEntry {stackTrace : Option (List Frame)}
    (h : t.Describes tid w.tls w.user.locals)
    (hentry : runCallback env (.methodEntry stackTrace) w = .ok w') :
    w'.user.globals = w.user.globals ∧
      (t.methodEntry w.user.globals.objectInfo stackTrace).Describes tid w'.tls w'.user.locals := by
  have hmethod := congrArg ThreadOutput.method h.output
  have hidle : w.tls.current.outputState = none ∨ stackTrace = none →
      w'.user.globals = w.user.globals ∧
        RecordedThread.Describes { t with stack := [] } tid w'.tls w'.user.locals := by
    intro hidle
    rw [methodEntry_idle hidle] at hentry
    cases hentry
    refine ⟨rfl, ?_, rfl, h.counter, h.methods⟩
    rw [recorded_unblockSample]
    exact (recorded_blockSample w).trans h.record
  unfold RecordedThread.methodEntry
  cases hlive : t.live with
  | none =>
      rw [hlive] at hmethod
      simpa [hlive] using hidle (.inl hmethod)
  | some r =>
      cases stackTrace with
      | none => simpa [hlive] using hidle (.inr rfl)
      | some frames => exact h.methodEntry_live hlive hentry

/-! ### Allocations

The callback has two halves: before `Class.getName` it counts the object, and after it the
frames are written, with a site for each of them that has lines. Between the two a signal or
another callback of the thread can come, and so the recorder has two events as well. -/

/-- The first half of `ObjectAllocCallback` counts the object. -/
theorem Describes.objectAllocEnter {args : AllocArgs} (h : t.Describes tid w.tls w.user.locals)
    (halloc : DroidPerf.objectAllocEnter args w = .ok w') :
    w'.user.globals = countAlloc args.size w.user.globals ∧
      (t.count args.object).Describes tid w'.tls w'.user.locals := by
  cases halloc
  refine ⟨rfl, (recorded_blockSample w).trans h.record, h.stack, ?_, h.methods⟩
  rw [count, ← h.counter]
  rfl

/-- To record a site changes no stream. -/
theorem recordSite_output (args : AllocArgs) (line : Int) (l : AllocLoop) :
    (recordSite args line l).outputStreamAlloc = l.outputStreamAlloc := by
  unfold recordSite
  split <;> rfl

/-- The stream while `ObjectAllocCallback` runs over the frames: each frame but those of
`getName` itself is a piece. Whether any was written decides later if the line gets its end. -/
theorem allocFrames_output {args : AllocArgs} {frames : List Frame} {l l' : AllocLoop}
    {pieces : List Fragment} (hl : l.outputStreamAlloc = streamWith .alloc tid pieces)
    (hloop : frames.foldlM (allocFrame args) l = .ok l') :
    l'.outputStreamAlloc = streamWith .alloc tid (pieces ++
        (frames.filter fun frame => frame.method ≠ args.midGetName).map fun frame =>
          framePiece (frame.method, allocScope frame)) ∧
      l'.inside = (l.inside || frames.any fun frame => frame.method ≠ args.midGetName) := by
  induction frames generalizing l pieces with
  | nil =>
      cases hloop
      simpa using hl
  | cons frame frames ih =>
      rw [List.foldlM_cons] at hloop
      obtain ⟨l₁, hframe, hloop⟩ := bind_eq_ok.mp hloop
      unfold allocFrame at hframe
      split at hframe
      · -- a frame of `Class.getName` itself is passed over
        rename_i hname
        cases hframe
        simpa [hname] using ih hl hloop
      · rename_i hname
        have hstep : l₁.outputStreamAlloc =
            streamWith .alloc tid (pieces ++ [framePiece (frame.method, allocScope frame)]) ∧
              l₁.inside = true := by
          cases hline : frame.lineTable with
          | none =>
              rw [hline] at hframe
              obtain ⟨o, hwrite, hframe⟩ := bind_eq_ok.mp hframe
              cases hframe
              rw [hl] at hwrite
              rw [allocScope, hline]
              exact ⟨writef_streamWith hwrite, rfl⟩
          | some table =>
              rw [hline] at hframe
              obtain ⟨o, hwrite, hframe⟩ := bind_eq_ok.mp hframe
              cases hframe
              rw [recordSite_output, hl] at hwrite
              rw [allocScope, hline]
              exact ⟨writef_streamWith hwrite, rfl⟩
        obtain ⟨houtput, hinside⟩ := ih hstep.1 hloop
        rw [houtput, hinside, hstep.2]
        simp [hname]

/-- A trace with a frame outside of `getName` is a whole line, with the count at its end;
another one leaves nothing. -/
theorem allocTrace_output {args : AllocArgs} {frames : List Frame} {count : Nat} {g g' : Globals}
    {pieces : List Fragment} {o : Output}
    (htrace : allocTrace args frames count g (streamWith .alloc tid pieces) = .ok (g', o)) :
    o = streamWith .alloc tid (pieces ++ allocPieces (allocPath args frames, count)) := by
  obtain ⟨l, hloop, htrace⟩ := bind_eq_ok.mp htrace
  obtain ⟨houtput, hinside⟩ := allocFrames_output rfl hloop
  have hpath : l.inside = decide (allocPath args frames ≠ []) := by
    rw [hinside, Bool.eq_iff_iff]
    simp [allocPath, List.filter_eq_nil_iff]
  have hpieces : (frames.reverse.filter fun frame => frame.method ≠ args.midGetName).map
      (fun frame => framePiece (frame.method, allocScope frame)) =
        (allocPath args frames).map framePiece := by
    rw [allocPath, List.map_map]
    rfl
  rw [hpieces] at houtput
  unfold allocPieces
  split at htrace
  · -- a frame was written, so the line is ended by the count
    rename_i hin
    rw [hpath, decide_eq_true_iff] at hin
    obtain ⟨o', hwrite, htrace⟩ := bind_eq_ok.mp htrace
    cases htrace
    rw [houtput] at hwrite
    rw [writef_streamWith hwrite, if_neg hin, List.append_assoc]
  · rename_i hout
    rw [hpath, decide_eq_true_iff, not_not] at hout
    cases htrace
    rw [houtput, hout]
    rfl

/-- The streams of a thread that is traced, with another stream for allocations. -/
theorem Describes.withAlloc {r : Recording} {o : Output} (h : t.Describes tid tls v)
    (hlive : t.live = some r) :
    (tls.update fun td => { td with outputStateAlloc := some o }).recorded =
      (some (), { outputOf tid (some r) with alloc := some o }) := by
  have hcontext := h.context
  have houtput := h.output
  rw [hlive] at hcontext houtput
  simp only [Tls.output, outputOf, Option.map_some, ThreadOutput.mk.injEq] at hcontext houtput
  simp [Tls.recorded, Tls.output, outputOf, hcontext, houtput]

/-- The second half writes the line of the allocation and records its sites. -/
theorem Describes.objectAllocLeave {args : AllocArgs} (h : t.Describes tid w.tls w.user.locals)
    (halloc : DroidPerf.objectAllocLeave args w = .ok w') :
    w'.user.globals = (t.sites args).foldl (addSite args) w.user.globals ∧
      (t.alloc args).Describes tid w'.tls w'.user.locals := by
  have hcontext := h.context
  have houtput : w.tls.current.outputStateAlloc = (outputOf tid t.live).alloc :=
    congrArg ThreadOutput.alloc h.output
  obtain ⟨w₁, hbody, halloc⟩ := bind_eq_ok.mp halloc
  cases halloc
  obtain ⟨w₂, hbody, hw₂⟩ := bind_eq_ok.mp hbody
  cases hw₂
  dsimp only at hbody
  unfold sites alloc
  cases hlive : t.live with
  | none =>
      -- the thread has no context, so it is not traced
      rw [hlive] at hcontext
      rw [hcontext] at hbody
      cases hbody
      exact ⟨rfl, h.congr (recorded_unblockSample w)⟩
  | some r =>
      rw [hlive] at hcontext houtput
      rw [hcontext, houtput] at hbody
      cases htrace : args.stackTrace with
      | none =>
          rw [htrace] at hbody
          cases hbody
          exact ⟨rfl, h.congr (recorded_unblockSample w)⟩
      | some frames =>
          rw [htrace] at hbody
          obtain ⟨⟨g, o⟩, hwrite, hbody⟩ := bind_eq_ok.mp hbody
          cases hbody
          refine ⟨allocTrace_globals hwrite, ?_, h.stack, h.counter, ?_⟩
          · rw [recorded_unblockSample, h.withAlloc hlive, allocTrace_output hwrite, ← h.counter]
            simp [outputOf, Recording.pieces]
          · intro r' hr'
            cases hr'
            exact h.methods r hlive

end Thread

end RecordedThread

/-! ### The process

A process has its threads, the variables they share, and the streams that were deleted. A
callback runs on one thread, and the relation for the others is untouched. -/

namespace Recorder

/-- A session is described by a recorder. -/
structure Describes (r : Recorder) (s : Session) : Prop where
  threads : ∀ tid, (r.threads tid).Describes tid (s.process.threads tid).tls
    (s.process.threads tid).user.locals
  globals : s.process.globals = r.globals
  closed : s.closed = r.ended.map fun e => outputOf e.1 e.2

variable {r : Recorder} {s s' : Session} {tid : Nat}

/-- Before the first event there is nothing to describe. -/
theorem describes_start : start.Describes .start := by
  refine ⟨fun tid => ⟨rfl, rfl, rfl, nofun⟩, rfl, rfl⟩

/-- Code that runs on a thread changes the thread and the global variables. -/
theorem Describes.on {code : Stmt} {p : Process} {t : RecordedThread} {g : Globals}
    (h : r.Describes s) (hon : s.process.on tid code = .ok p)
    (hcode : ∀ w, code (s.process.thread tid) = .ok w →
      w.user.globals = g ∧ t.Describes tid w.tls w.user.locals) :
    Describes { r.set tid t with globals := g } { s with process := p } := by
  obtain ⟨w, hw, hon⟩ := bind_eq_ok.mp hon
  cases hon
  obtain ⟨hglobals, ht⟩ := hcode w hw
  refine ⟨fun tid' => ?_, hglobals, h.closed⟩
  by_cases hsame : tid' = tid
  · subst hsame
    simpa [set] using ht
  · simpa [set, Function.update_of_ne hsame] using h.threads tid'

/-- The thread that a callback finds. -/
theorem Describes.thread (h : r.Describes s) (tid : Nat) :
    (r.threads tid).Describes tid (s.process.thread tid).tls (s.process.thread tid).user.locals ∧
      (s.process.thread tid).user.globals = r.globals :=
  ⟨h.threads tid, h.globals⟩

/-- To set a thread to itself changes nothing. -/
@[simp] theorem set_self (r : Recorder) (tid : Nat) : r.set tid (r.threads tid) = r := by
  rw [set, Function.update_eq_self]

/-- A callback without statements. -/
theorem Describes.idle {env : AgentEnv} {callback : Callback} {p : Process} (h : r.Describes s)
    (hbody : callback.body env = []) (hcall : s.process.call env tid callback = .ok p) :
    r.Describes { s with process := p } := by
  obtain ⟨ht, hg⟩ := h.thread tid
  have hset := h.on hcall (t := r.threads tid) (g := r.globals) fun w hw => by
    rw [runCallback, hbody] at hw
    cases hw
    exact ⟨hg, ht.congr (by rw [recorded_unblockSample, recorded_blockSample])⟩
  simpa using hset

/-- **One callback**, by cases on which one it is. The streams that a `ThreadEnd` deletes go to
the closed ones on both sides. -/
theorem Describes.call {env : AgentEnv} {callback : Callback} {p : Process} (h : r.Describes s)
    (hcall : s.process.call env tid callback = .ok p) :
    (r.next 0 (.call tid callback)).Describes
      ⟨p, s.closed ++ Session.deleted (s.process.thread tid).tls callback⟩ := by
  obtain ⟨ht, hg⟩ := h.thread tid
  have hon : s.process.on tid (runCallback env callback) = .ok p := hcall
  cases callback with
  | threadStart answers =>
      have htid : (s.process.thread tid).tls.gettid = tid :=
        congrArg ThreadOutput.tid ht.output
      have hset := h.on hon (t := .started) (g := r.globals) fun w hw => by
        obtain ⟨hglobals, hw⟩ := RecordedThread.Describes.threadStart htid hw
        exact ⟨hglobals.trans hg, hw⟩
      simpa [next, set, Session.deleted] using hset
  | threadEnd =>
      have hset := h.on hon (t := { r.threads tid with live := none }) (g := r.globals)
        fun w hw => by
          obtain ⟨huser, hw⟩ := ht.threadEnd hw
          exact ⟨(congrArg Variables.globals huser).trans hg, hw⟩
      refine ⟨hset.threads, hset.globals, ?_⟩
      simp [next, Session.deleted, h.closed, ht.output]
  | methodEntry stackTrace =>
      have hset := h.on hon (t := (r.threads tid).methodEntry r.globals.objectInfo stackTrace)
        (g := r.globals) fun w hw => by
          obtain ⟨hglobals, hw⟩ := ht.methodEntry hw
          rw [hg] at hglobals hw
          exact ⟨hglobals, hw⟩
      simpa [next, set, Session.deleted] using hset
  | objectAlloc args =>
      have hset := h.on hon (t := ((r.threads tid).count args.object).alloc args)
        (g := (((r.threads tid).count args.object).sites args).foldl (addSite args)
          (countAlloc args.size r.globals)) fun w hw => by
          rw [runCallback_objectAlloc] at hw
          obtain ⟨w₁, henter, hleave⟩ := bind_eq_ok.mp hw
          obtain ⟨hglobals, hw₁⟩ := ht.objectAllocEnter henter
          obtain ⟨hglobals', hw⟩ := hw₁.objectAllocLeave hleave
          rw [hglobals', hglobals, hg]
          exact ⟨rfl, hw⟩
      simpa [next, allocEnter, allocLeave, set, Session.deleted] using hset
  | vmDeath | gcStart | gcEnd | classLoad | classPrepare =>
      simpa [next, Session.deleted] using h.idle rfl hcall

/-- **One event** of a process: a callback, the two halves of an allocation, a free, a signal,
or a change of the kernel's rings, which the recorder does not see. -/
theorem Describes.step {env : AgentEnv} {mask : Nat} {event : AgentEvent} (h : r.Describes s)
    (hstep : s.step env mask event = .ok s') :
    (r.next (s.samplesOf env mask event) event).Describes s' := by
  cases event with
  | call tid callback =>
      obtain ⟨p, hcall, hstep⟩ := bind_eq_ok.mp hstep
      cases hstep
      exact h.call hcall
  | objectAllocEnter tid args =>
      obtain ⟨p, hon, hstep⟩ := bind_eq_ok.mp hstep
      cases hstep
      obtain ⟨ht, hg⟩ := h.thread tid
      refine h.on hon fun w hw => ?_
      obtain ⟨hglobals, hw⟩ := ht.objectAllocEnter hw
      exact ⟨hg ▸ hglobals, hw⟩
  | objectAllocLeave tid args =>
      obtain ⟨p, hon, hstep⟩ := bind_eq_ok.mp hstep
      cases hstep
      obtain ⟨ht, hg⟩ := h.thread tid
      refine h.on hon fun w hw => ?_
      obtain ⟨hglobals, hw⟩ := ht.objectAllocLeave hw
      exact ⟨hg ▸ hglobals, hw⟩
  | objectFree traversal tag =>
      obtain ⟨g, hfree, hstep⟩ := bind_eq_ok.mp hstep
      cases hstep
      refine ⟨h.threads, ?_, h.closed⟩
      rw [objectFree_eq hfree, h.globals]
      rfl
  | signal tid fuel siginfo =>
      obtain ⟨p, hon, hstep⟩ := bind_eq_ok.mp hstep
      cases hstep
      obtain ⟨ht, hg⟩ := h.thread tid
      refine h.on hon fun w hw => ?_
      obtain ⟨huser, hsampled⟩ := ht.signal hw
      rw [hg] at hsampled
      exact ⟨(congrArg Variables.globals huser).trans hg, hsampled⟩
  | kernel tid k =>
      obtain ⟨p, hon, hstep⟩ := bind_eq_ok.mp hstep
      cases hstep
      obtain ⟨ht, hg⟩ := h.thread tid
      have hset := h.on hon (t := r.threads tid) (g := r.globals) fun w hw => by
        cases hw
        exact ⟨hg, ht⟩
      simpa [next] using hset

end Recorder

/-- Whatever happens in a process, its threads and its closed streams are those of a recorder
that saw the same events and took the samples that the signals delivered. -/
theorem session_recorded {env : AgentEnv} {mask : Nat} {events : List AgentEvent} {s : Session}
    (h : Session.run env mask events = .ok s) :
    ∃ r, Recorder.Reaches events (Session.taken env mask events) r ∧ r.Describes s := by
  refine Run.specRun_of_foldlM (R := fun s r => Recorder.Describes r s) ?_
    Recorder.describes_start h
  intro s r event s' hdescribes hstep
  exact ⟨r.next (s.samplesOf env mask event) event, rfl, hdescribes.step hstep⟩

/-! ### A session of two threads -/

/-- The root of a stack trace, with two lines of its method. -/
def callerFrame : Frame := ⟨16, 3, ['f'], "La/B;".toList, some ⟨⟨0, 5⟩, [⟨2, 6⟩]⟩⟩

/-- The leaf of a stack trace, without lines. -/
def calleeFrame : Frame := ⟨32, 0, ['g'], "La/B;".toList, none⟩

/-- An object of 24 bytes, allocated in the leaf. -/
def calleeAlloc : AllocArgs := ⟨1, 24, 1, "La/C;".toList, 48, some [calleeFrame, callerFrame]⟩

/-- The second thread is started without events, and enters a method while the first one is
in the middle of an allocation. -/
def twoThreads : List AgentEvent :=
  [.call 7 (.threadStart plainAnswers),
   .call 8 (.threadStart fun _ _ => ⟨-1, 0, 0, 0, 0, none⟩),
   .call 7 (.methodEntry (some [calleeFrame, callerFrame])),
   .objectAllocEnter 7 calleeAlloc,
   .call 8 (.methodEntry (some [callerFrame])),
   .objectAllocLeave 7 calleeAlloc,
   .kernel 7 sampledKernel,
   .signal 7 2 ⟨1, 10⟩,
   .call 7 .threadEnd,
   .call 8 .threadEnd]

/-- What the run leaves. -/
def twoThreadsSession : Session :=
  match Session.run ⟨genericEnv, [cycles]⟩ 4095 twoThreads with
  | .ok s => s
  | .error _ => .start

/-- The run returns, and this is what it leaves. -/
theorem run_twoThreads :
    Session.run ⟨genericEnv, [cycles]⟩ 4095 twoThreads = .ok twoThreadsSession := by
  have hok : (Session.run ⟨genericEnv, [cycles]⟩ 4095 twoThreads).isOk = true := by
    decide +kernel
  unfold twoThreadsSession
  cases hrun : Session.run ⟨genericEnv, [cycles]⟩ 4095 twoThreads with
  | error fault =>
      rw [hrun] at hok
      cases hok
  | ok s => rfl

/-- The recorder describes what the two threads leave. -/
theorem session_recorded_twoThreads :
    ∃ r, Recorder.Reaches twoThreads (Session.taken ⟨genericEnv, [cycles]⟩ 4095 twoThreads) r ∧
      r.Describes twoThreadsSession :=
  session_recorded run_twoThreads

end DroidPerf
