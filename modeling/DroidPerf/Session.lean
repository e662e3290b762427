import DroidPerf.Lib.Run
import DroidPerf.Process

/-!
# DroidPerf.Session

A process under the agent, from the first callback on: the callbacks of all its threads, the
signals, and the streams that `Profiler::threadEnd` deletes.

A callback runs in one go, except for `ObjectAllocCallback` on a traced thread. The VM runs
`Class.getName` in it, so there anything can happen between its two parts, callbacks of the
same thread among them.

The samples of a signal are known from the ring before it is handled (`signalSamples`). That
makes it possible to say of a run what was sampled in it (`Session.taken`) without following
the code.
-/

namespace DroidPerf

/-- Code that runs on a thread of the process. -/
def Process.on (p : Process) (tid : Nat) (code : Stmt) : Except Fault Process := do
  let w ← code (p.thread tid)
  return ⟨Function.update p.threads tid w, w.user.globals⟩

/-- The four streams of a thread. -/
structure ThreadOutput where
  tid : Nat
  method : Option Output
  trace : Option Output
  alloc : Option Output
  cachemiss : Option Output
  deriving DecidableEq, Repr

/-- The streams in the record of a thread. -/
def Tls.output (t : AgentTls) : ThreadOutput :=
  ⟨t.gettid, t.current.outputState, t.current.outputStateTrace, t.current.outputStateAlloc,
    t.current.outputStateCachemiss⟩

/-- `ObjectAllocCallback` up to the call of `Class.getName`. -/
def objectAllocEnter (args : AllocArgs) : Stmt := fun w =>
  runStmts ((objectAlloc args).take 2) (blockSample w)

/-- `ObjectAllocCallback` from the call of `Class.getName` on. -/
def objectAllocLeave (args : AllocArgs) : Stmt := fun w => do
  let w ← runStmts ((objectAlloc args).drop 2) w
  return unblockSample w

/-- The sample records that `perf_event_handler` finds in the ring of an entry. -/
def ringSamples (mask fuel : Nat) (current : PerfEventThread) (k : Kernel) : Nat :=
  match current.mmapBuf.bind k.rings with
  | none => 0
  | some (_, m) =>
    match drainLoop mask current.event.attr.sampleType (fun _ n => .ok (n + 1)) fuel m 0 with
    | .error _ => 0
    | .ok (_, n) => n

/-- The samples that a signal on a thread delivers: none inside of the agent, and none if the
descriptor is not one of the thread's. -/
def signalSamples (mask fuel : Nat) (siginfo : SigInfo) (w : AgentThread) : Nat :=
  if w.tls.current.insideAgent ∨ siginfo.siCode < 0 then 0
  else
    match w.tls.current.perfState.bind fun list => findEvent list siginfo.siFd with
    | none => 0
    | some current => ringSamples mask fuel current w.kernel

/-- What happens in a process. -/
inductive AgentEvent where
  | call (tid : Nat) (callback : Callback)
  | objectAllocEnter (tid : Nat) (args : AllocArgs)
  | objectAllocLeave (tid : Nat) (args : AllocArgs)
  | objectFree (traversal : ListSet.Traversal (List Char)) (tag : Nat)
  | signal (tid fuel : Nat) (siginfo : SigInfo)
  | kernel (tid : Nat) (k : Kernel)

/-- The process, and the streams that have been deleted: each time a thread ended, its four
streams. -/
structure Session where
  process : Process
  closed : List ThreadOutput

namespace Session

/-- Before the first callback. -/
def start : Session := ⟨.start, []⟩

/-- The streams that a callback deletes. -/
def deleted (t : AgentTls) : Callback → List ThreadOutput
  | .threadEnd => [t.output]
  | _ => []

/-- One event. -/
def step (env : AgentEnv) (mask : Nat) (s : Session) : AgentEvent → Except Fault Session
  | .call tid callback => do
    let p ← s.process.call env tid callback
    return ⟨p, s.closed ++ deleted (s.process.thread tid).tls callback⟩
  | .objectAllocEnter tid args => do
    let p ← s.process.on tid (DroidPerf.objectAllocEnter args)
    return { s with process := p }
  | .objectAllocLeave tid args => do
    let p ← s.process.on tid (DroidPerf.objectAllocLeave args)
    return { s with process := p }
  | .objectFree traversal tag => do
    let globals ← objectFree traversal tag s.process.globals
    return { s with process := { s.process with globals := globals } }
  | .signal tid fuel siginfo => do
    let p ← s.process.on tid (perfEventHandler mask (some (onSample env.profiler)) fuel siginfo)
    return { s with process := p }
  | .kernel tid k => do
    let p ← s.process.on tid fun w => .ok { w with kernel := k }
    return { s with process := p }

/-- The samples that are taken in an event, which only the generic client does. -/
def samplesOf (env : AgentEnv) (mask : Nat) (s : Session) : AgentEvent → Nat
  | .signal tid fuel siginfo =>
    if env.profiler.clientName = generic then
      signalSamples mask fuel siginfo (s.process.thread tid)
    else 0
  | _ => 0

/-- Events one after another. -/
def run (env : AgentEnv) (mask : Nat) (events : List AgentEvent) : Except Fault Session :=
  events.foldlM (step env mask) start

/-- The samples that are taken in each of the events. -/
def taken (env : AgentEnv) (mask : Nat) (events : List AgentEvent) : List Nat :=
  Run.answers (step env mask) (samplesOf env mask) start events

end Session

/-- `ObjectAllocCallback` in one go is its two parts one after the other. -/
theorem runCallback_objectAlloc (env : AgentEnv) (args : AllocArgs) (w : AgentThread) :
    runCallback env (.objectAlloc args) w =
      DroidPerf.objectAllocEnter args w >>= DroidPerf.objectAllocLeave args := by
  have hsplit : objectAlloc args = (objectAlloc args).take 2 ++ (objectAlloc args).drop 2 :=
    (List.take_append_drop 2 _).symm
  unfold runCallback objectAllocEnter objectAllocLeave
  rw [Callback.body, hsplit]
  unfold runStmts
  rw [List.foldlM_append, bind_assoc]
  rfl

end DroidPerf
