import DroidPerf.PerfInterface
import DroidPerf.Io
import DroidPerf.Lib.ListSet

/-!
# DroidPerf.Profiler

Samples and threads (`profiler.cpp`).

The state of a thread is its record, the kernel's side of its events and the agent's variables.
The calling-context tree of a thread is never changed by the functions here, only tested for
being there, so it is a `Unit`.

What start-up decides once for the process (the client, the metrics and their thresholds) is in
`ProfilerEnv` and never changes.
-/

namespace DroidPerf

open Text

/-- The agent's `thread_local` variables. -/
structure ThreadLocals where
  methodIdList : ListSet Nat
  objectAllocCounter : Nat → Nat
  callpathVec : List (Nat × List Char)

/-- The agent's global variables. -/
structure Globals where
  activeMemoryUsage : Nat
  objectLiveCycle : ListSet (List Char)
  objectInfo : List Char

/-- The variables a callback works on. -/
structure Variables where
  locals : ThreadLocals
  globals : Globals

/-- The thread-specific slot of a thread of the agent. -/
abbrev AgentTls : Type := Tls (List PerfEventThread) Unit Output

/-- A thread of the agent. -/
abbrev AgentThread : Type := PerfThread Unit Output Variables

/-- The global variables before the first callback. -/
def Globals.start : Globals := ⟨0, .empty, []⟩

/-- A thread before its first callback. -/
def newThread (tid : Nat) : AgentThread :=
  ⟨⟨tid, none, []⟩, ⟨fun _ => none, fun _ => none, []⟩, ⟨⟨.empty, fun _ => 0, []⟩, .start⟩⟩

/-- What start-up fixed: the client, the metric table (the threshold of each metric)
and the test on sample addresses. -/
structure ProfilerEnv where
  clientName : String
  metricThreshold : Int → Option Nat
  isValidAddress : Nat → Nat → Bool

/-- The generic client with one metric. -/
def genericEnv : ProfilerEnv := ⟨generic, fun i => if i = 0 then some 0 else none, fun _ _ => true⟩

/-- `DATA_CENTRIC_CLIENT_NAME`. -/
def dataCentric : String := "DATACENTRIC"
/-- `NUMANODE_CLIENT_NAME`. -/
def numaNode : String := "NUMA"

/-! ### Samples

A sample is a line in one or two of the thread's streams. `OnSample` chooses the streams by the
client and by the metric. -/

/-- The loop of `constructContext` over the call path; `previous` is the method of
the frame before. -/
def writeCallpath (previous : Option Nat) :
    List (Nat × List Char) → Output → Except Fault Output
  | [], o => .ok o
  | (method, scope) :: callpath, o => do
    let o ← if previous = some method then .ok o else o.writef (.frame scope method)
    writeCallpath (some method) callpath o

/-- One line of a trace stream. -/
def writeTrace (callpathVec : List (Nat × List Char)) (metric : Nat) (o : Output) :
    Except Fault Output := do
  let o ← writeCallpath none callpathVec o
  if 1 ≤ callpathVec.length then o.writef (.metric metric) else return o

/-- The metric on every line of the cachemiss stream. -/
def cachemissThreshold : Nat := 100000000

/-- `constructContext`, which always returns a null context. -/
def constructContext (callpathVec : List (Nat × List Char)) (activeMemoryUsage : Nat)
    (t : AgentTls) : Except Fault AgentTls :=
  match t.current.contextState with
  | none => .ok (threadDataGet t).2
  | some _ => do
    let trace ← t.current.outputStateTrace.mapM (writeTrace callpathVec activeMemoryUsage)
    let cachemiss ← t.current.outputStateCachemiss.mapM
      (writeTrace callpathVec cachemissThreshold)
    return t.update fun td =>
      { td with outputStateTrace := trace, outputStateCachemiss := cachemiss }

/-- `Profiler::OnSample`. -/
def onSample (env : ProfilerEnv) : SampleCb Unit Output Variables :=
  fun _ sampleData metricId1 _ _ (t, v) =>
    if env.clientName ≠ generic ∧ (!sampleData.isPrecise ∨ sampleData.addr = 0) then .ok (t, v)
    else if env.clientName ≠ dataCentric ∧ env.clientName ≠ numaNode ∧
        env.clientName ≠ generic ∧ env.clientName ≠ heap ∧ env.clientName ≠ allocationTimes ∧
        !env.isValidAddress sampleData.ip sampleData.addr then .ok (t, v)
    else
      match env.metricThreshold metricId1 with
      | none => .error .segfault
      | some _ =>
        if env.clientName = generic then do
          let t ← constructContext v.locals.callpathVec v.globals.activeMemoryUsage t
          return (t, v)
        else .ok (t, v)

/-! ### Threads

`threadStart` and `threadEnd` are lists of statements, each a step of the thread that may fail. -/

/-- A statement of a callback. -/
abbrev Stmt : Type := AgentThread → Except Fault AgentThread

/-- Statements one after another. -/
def runStmts (stmts : List Stmt) (w : AgentThread) : Except Fault AgentThread :=
  stmts.foldlM (fun w stmt => stmt w) w

/-- The thread's record, as the agent's threads have it. -/
abbrev AgentThreadData : Type := ThreadData (List PerfEventThread) Unit Output

/-- `TD_GET(field) = value`. -/
def setThreadData (f : AgentThreadData → AgentThreadData) : Stmt := fun w =>
  .ok { w with tls := w.tls.update f }

/-- A stream for the file of the given kind. -/
def newOutput (kind : String) (tid : Nat) : Output :=
  (Output.new.setFileName ("/sdcard/Documents/".toList ++ kind.toList ++ "-thread-".toList ++
    decimal tid ++ ".run".toList)).2

/-- `Profiler::threadStart`, statement by statement. The counters it resets and the
address table it fills are not used by what is modelled. -/
def threadStart (eventInfo : List PerfEventInfo) (answers : Nat → Fin 8 → SetupAnswers) :
    List Stmt :=
  [ fun w => .ok { w with user := { w.user with locals := ⟨.empty, fun _ => 0, []⟩ } },
    fun w => .ok { w with tls := threadDataAlloc w.tls },
    setThreadData fun td => { td with contextState := some () },
    setThreadData fun td => { td with outputState := some (newOutput "method" td.tid) },
    setThreadData fun td => { td with outputStateTrace := some (newOutput "trace" td.tid) },
    setThreadData fun td => { td with outputStateAlloc := some (newOutput "alloc" td.tid) },
    setThreadData fun td => { td with
      outputStateCachemiss := some (newOutput "cachemiss" td.tid) },
    fun w => (setupEvents eventInfo answers w).map Prod.snd ]

/-- A thread of the process that has been started, without events. -/
def startedThread : AgentThread :=
  { newThread 7 with
    tls := ⟨7, some { (ThreadData.zero 7 : AgentThreadData) with
      contextState := some ()
      outputState := some (newOutput "method" 7)
      outputStateTrace := some (newOutput "trace" 7)
      outputStateAlloc := some (newOutput "alloc" 7)
      outputStateCachemiss := some (newOutput "cachemiss" 7) }, []⟩ }

/-- `Profiler::threadEnd`, statement by statement; the call of `closeEvents` is
commented out in the source. -/
def threadEnd (clientName : String) : List Stmt :=
  [ setThreadData fun td => { td with outputState := none },
    setThreadData fun td => { td with outputStateTrace := none },
    setThreadData fun td => { td with outputStateAlloc := none },
    setThreadData fun td => { td with outputStateCachemiss := none },
    setThreadData fun td => { td with contextState := none },
    setThreadData fun td => { td with ctxtSampleState := fun _ => none },
    fun w => (threadDataDealloc clientName w.tls).map fun tls => { w with tls := tls } ]

end DroidPerf
