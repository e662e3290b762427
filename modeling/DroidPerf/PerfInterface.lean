import DroidPerf.PerfMmap
import DroidPerf.ThreadData
import Mathlib.Data.List.FinRange
import Mathlib.Logic.Function.Basic

/-!
# DroidPerf.PerfInterface

Sampling on hardware counters (`perf_interface.cpp`, `perf_util.cpp`).

* `Kernel` is what the agent uses of the kernel: the open counters and the mapped
  rings. An `ioctl` succeeds on every open counter and on nothing else.
* The sample callback is a parameter, as `user_sample_cb` is; it acts on the
  thread's record and on a state `σ` of its own.
* The loop by which the signal handler empties a ring is bounded by a number of
  iterations: a run that has not ended by then is the fault `outOfFuel`.
* `setupEvents` is given the answers of the system calls for each event and CPU.
-/

namespace DroidPerf

/-! ### Event attributes

The attributes of an event are filled in one function, so every counter is opened with the same
kinds of data in its samples. -/

/-- `struct perf_event_attr`, as far as `perf_attr_init` fills it. -/
structure PerfEventAttr where
  sampleType : Nat
  samplePeriod : Nat
  freq : Bool
  readFormat : Nat
  disabled : Bool
  wakeupEvents : Nat
  excludeCallchainUser : Bool
  excludeCallchainKernel : Bool
  excludeKernel : Bool
  excludeHv : Bool
  excludeIdle : Bool
  deriving DecidableEq, Repr

/-- `PERF_FORMAT_TOTAL_TIME_ENABLED`. -/
def perfFormatTotalTimeEnabled : Nat := 1
/-- `PERF_FORMAT_TOTAL_TIME_RUNNING`. -/
def perfFormatTotalTimeRunning : Nat := 2

/-- `perf_attr_init`: every field it knows is overwritten, the same ones for either
kind of threshold but for `freq`. -/
def perfAttrInit (threshold moreSampleType : Nat) : PerfEventAttr where
  sampleType := moreSampleType ||| perfSampleIp ||| perfSampleCallchain ||| perfSampleAddr |||
    perfSampleCpu
  samplePeriod := threshold
  freq := threshold = 0
  readFormat := perfFormatTotalTimeEnabled ||| perfFormatTotalTimeRunning
  disabled := true
  wakeupEvents := 1
  excludeCallchainUser := true
  excludeCallchainKernel := true
  excludeKernel := true
  excludeHv := true
  excludeIdle := true

/-! ### The drain loop

The loop looks how much is left, reads a header and handles one record, until less than a
header is left. -/

/-- `PERF_RECORD_SAMPLE`. -/
def perfRecordSample : Nat := 9
/-- `PERF_RECORD_MISC_EXACT_IP`. -/
def perfRecordMiscExactIp : Nat := 2 ^ 14

section Drain

variable {σ : Type} (mask sampleType : Nat) (cb : PerfSampleData → σ → Except Fault σ)

/-- The body of the loop after the header was read. A sample goes to the callback; another
record is skipped, and one that says it has no bytes makes the rest of the ring useless. -/
def drainRecord (ehdr : PerfEventHeader) (m : PerfMmap) (s : σ) : Except Fault (PerfMmap × σ) :=
  if ehdr.type = perfRecordSample then
    match perfReadRecordSample mask m sampleType
        ⟨0, 0, 0, 0, 0, ehdr.misc &&& perfRecordMiscExactIp ≠ 0⟩ with
    | none => .error .assertion
    | some (sampleData, m) => (cb sampleData s).map fun s => (m, s)
  else if ehdr.size = 0 then .ok (perfSkipAll m, s)
  else .ok (perfSkipRecord m ehdr, s)

/-- The loop of `perf_event_handler` that empties a ring. -/
def drainLoop : Nat → PerfMmap → σ → Except Fault (PerfMmap × σ)
  | 0, _, _ => .error .outOfFuel
  | fuel + 1, m, s =>
    let remainingDataSize := perfNumOfRemainingData m
    if 0 < remainingDataSize then
      if remainingDataSize < sizeofHeader then .ok (perfSkipAll m, s)
      else
        match perfReadHeader mask m with
        | none => .error .assertion
        | some (ehdr, m) => do
          let (m, s) ← drainRecord mask sampleType cb ehdr m s
          drainLoop fuel m s
    else .ok (m, s)

end Drain

/-! ### Counters and rings

The kernel's side is as much as the agent can see of it by its calls. A request on a descriptor
that is no open counter fails, and the loops over descriptors stop there. -/

/-- The kernel's side: which descriptors are open counters and whether each is
enabled, which addresses are mapped rings and of which descriptor, and the
addresses passed to `munmap` so far. -/
structure Kernel where
  counters : Int → Option Bool
  rings : Nat → Option (Int × PerfMmap)
  unmapped : List Nat

/-- The requests the agent makes with `ioctl`. -/
inductive IoctlRequest where
  | reset
  | refresh
  | enable
  | disable
  deriving DecidableEq, Repr

/-- Whether a counter is enabled after a request. -/
def IoctlRequest.apply (on : Bool) : IoctlRequest → Bool
  | .reset => on
  | .refresh => true
  | .enable => true
  | .disable => false

/-- `ioctl` on a counter; `none` is a negative result. -/
def ioctl (k : Kernel) (fd : Int) (request : IoctlRequest) : Option Kernel :=
  (k.counters fd).map fun on =>
    { k with counters := Function.update k.counters fd (some (request.apply on)) }

/-- `perf_event_info_t`. -/
structure PerfEventInfo where
  metricId1 : Int
  metricId2 : Int
  metricId3 : Int
  name : String
  threshold : Nat
  attr : PerfEventAttr
  deriving DecidableEq, Repr

/-- `perf_event_thread_t`. The event it points to is never written after start-up. -/
structure PerfEventThread where
  id : Nat
  fd : Fin 8 → Int
  mmapBuf : Option Nat
  event : PerfEventInfo

/-- The descriptors of an entry, in the order of its loops. -/
def PerfEventThread.fds (et : PerfEventThread) : List Int := (List.finRange 8).map et.fd

/-- One request on each valid descriptor, up to the first that fails. -/
def ioctlAll (request : IoctlRequest) : List Int → Kernel → Bool × Kernel
  | [], k => (true, k)
  | fd :: fds, k =>
    if fd < 0 then ioctlAll request fds k
    else
      match ioctl k fd request with
      | none => (false, k)
      | some k => ioctlAll request fds k

/-- `perf_start_all`. -/
def perfStartAll (eventThreadList : List PerfEventThread) (k : Kernel) : Bool × Kernel :=
  ioctlAll .enable (eventThreadList.flatMap PerfEventThread.fds) k

/-- `perf_stop_all`. -/
def perfStopAll (eventThreadList : List PerfEventThread) (k : Kernel) : Bool × Kernel :=
  ioctlAll .disable (eventThreadList.flatMap PerfEventThread.fds) k

/-- `restart_perf_event` on the descriptors of an entry, or on a single one. -/
def restartPerfEvent : List Int → Kernel → Bool × Kernel
  | [], k => (true, k)
  | fd :: fds, k =>
    if fd < 0 then (false, k)
    else
      match ioctl k fd .reset with
      | none => (false, k)
      | some k =>
        match ioctl k fd .refresh with
        | none => (false, k)
        | some k => restartPerfEvent fds k

/-! ### The signal handler

The handler has five exits: the guard was set, the thread has no events, the signal's code is
another one, its descriptor is unknown, or a ring was emptied. All but the first two restart
the counters. -/

/-- The fields of `siginfo_t` that the handler reads. -/
structure SigInfo where
  siCode : Int
  siFd : Int
  deriving DecidableEq, Repr

/-- A thread with its events, as the handler finds it. -/
structure PerfThread (κ ω σ : Type) where
  tls : Tls (List PerfEventThread) κ ω
  kernel : Kernel
  user : σ

/-- `sample_cb_t`: event id, sample and the event's three metrics. -/
abbrev SampleCb (κ ω σ : Type) : Type :=
  Nat → PerfSampleData → Int → Int → Int → Tls (List PerfEventThread) κ ω × σ →
    Except Fault (Tls (List PerfEventThread) κ ω × σ)

/-- The entry the handler works on: the last one with the signal's descriptor. -/
def findEvent (eventThreadList : List PerfEventThread) (siFd : Int) : Option PerfEventThread :=
  eventThreadList.foldl (fun current et => if siFd ∈ et.fds then some et else current) none

section Handler

variable {κ ω σ : Type} (mask : Nat) (userSampleCb : Option (SampleCb κ ω σ))

/-- Emptying the ring of an entry. -/
def drainEvent (fuel : Nat) (current : PerfEventThread) (w : PerfThread κ ω σ) :
    Except Fault (PerfThread κ ω σ) :=
  match userSampleCb with
  | none => .error .assertion
  | some cb =>
    match current.mmapBuf with
    | none => .error .segfault
    | some buf =>
      match w.kernel.rings buf with
      | none => .error .segfault
      | some (fd, m) => do
        let (m, tls, user) ← drainLoop mask current.event.attr.sampleType
          (fun sampleData s => cb current.id sampleData current.event.metricId1
            current.event.metricId2 current.event.metricId3 s) fuel m (w.tls, w.user)
        return ⟨tls, { w.kernel with rings := Function.update w.kernel.rings buf (some (fd, m)) },
          user⟩

/-- The end of every exit that stopped the counters before. -/
def resumeSampling (eventThreadList : List PerfEventThread) (w : PerfThread κ ω σ) :
    Except Fault (PerfThread κ ω σ) := do
  let (started, kernel) := perfStartAll eventThreadList w.kernel
  assert started
  return { w with tls := profilerSafeExit w.tls, kernel := kernel }

/-- `perf_event_handler`. -/
def perfEventHandler (fuel : Nat) (siginfo : SigInfo) (w : PerfThread κ ω σ) :
    Except Fault (PerfThread κ ω σ) :=
  -- check #0: the interrupt came while inside our code
  let (entered, tls) := profilerSafeEnter w.tls
  let w := { w with tls := tls }
  if !entered then .ok w
  else
    match w.tls.current.perfState with
    | none => .ok w
    | some eventThreadList => do
      let (stopped, kernel) := perfStopAll eventThreadList w.kernel
      assert stopped
      let w := { w with kernel := kernel }
      -- check #1: the signal is not from the kernel
      if siginfo.siCode < 0 then resumeSampling eventThreadList w
      else
        -- check #3: is the descriptor one of ours
        match findEvent eventThreadList siginfo.siFd with
        | none =>
          let (restarted, kernel) := restartPerfEvent [siginfo.siFd] w.kernel
          assert restarted
          resumeSampling eventThreadList { w with kernel := kernel }
        | some current =>
          let w ← drainEvent mask userSampleCb fuel current w
          let (restarted, kernel) := restartPerfEvent current.fds w.kernel
          assert restarted
          resumeSampling eventThreadList { w with kernel := kernel }

end Handler

/-! ### Setting up and closing a thread's events

For each event a counter is opened on each of eight CPUs, and its ring mapped. A failure in the
middle leaves what was done so far. -/

/-- What the system calls made for one event on one CPU return. -/
structure SetupAnswers where
  perfEventOpen : Int
  getfl : Int
  setfl : Int
  setownEx : Int
  setsig : Int
  mmap : Option Nat

/-- A new counter; `perf_attr_init` asks for a disabled one. -/
def Kernel.openCounter (k : Kernel) (fd : Int) : Kernel :=
  { k with counters := Function.update k.counters fd (some false) }

/-- `perf_set_mmap` after a successful `mmap`. -/
def Kernel.mapRing (k : Kernel) (fd : Int) (buf : Nat) : Kernel :=
  { k with rings := Function.update k.rings buf (some (fd, ⟨fun _ => 0, 0, 0⟩)) }

/-- The body of the loop of `setupEvents` over CPUs: the descriptor and its ring,
or `none` where the function returns false. -/
def setupCpu (a : SetupAnswers) (k : Kernel) : Except Fault (Option (Int × Nat) × Kernel) :=
  if a.perfEventOpen ≤ -1 then .ok (none, k)
  else
    let k := k.openCounter a.perfEventOpen
    let k := (ioctl k a.perfEventOpen .reset).getD k
    if a.getfl < 0 then .ok (none, k)
    else if a.setfl < 0 then .ok (none, k)
    else if a.setownEx < 0 then .ok (none, k)
    else if a.setsig < 0 then .ok (none, k)
    else
      match a.mmap with
      | none => .error .assertion
      | some buf => .ok (some (a.perfEventOpen, buf), k.mapRing a.perfEventOpen buf)

/-- The loop over CPUs, on one entry. Each ring overwrites the entry's one `mmap_buf`. -/
def setupCpus (answers : Fin 8 → SetupAnswers) :
    List (Fin 8) → PerfEventThread → Kernel → Except Fault (Option PerfEventThread × Kernel)
  | [], et, k => .ok (some et, k)
  | cpuIndex :: cpus, et, k => do
    match ← setupCpu (answers cpuIndex) k with
    | (none, k) => return (none, k)
    | (some (fd, buf), k) =>
      setupCpus answers cpus
        { et with fd := Function.update et.fd cpuIndex fd, mmapBuf := some buf } k

/-- The loop over events: whether all were set up, and the list as it was filled. -/
def setupLoop (answers : Nat → Fin 8 → SetupAnswers) :
    Nat → List PerfEventInfo → List PerfEventThread → Kernel →
      Except Fault (Bool × List PerfEventThread × Kernel)
  | _, [], eventThreadList, k => .ok (true, eventThreadList, k)
  | i, event :: events, eventThreadList, k => do
    match ← setupCpus (answers i) (List.finRange 8) ⟨i, fun _ => 0, none, event⟩ k with
    | (none, k) => return (false, eventThreadList, k)
    | (some et, k) => setupLoop answers (i + 1) events (eventThreadList ++ [et]) k

section Events

variable {κ ω σ : Type}

/-- `PerfManager::setupEvents`; the result of the last `perf_start_all` is not looked
at. -/
def setupEvents (eventInfo : List PerfEventInfo) (answers : Nat → Fin 8 → SetupAnswers)
    (w : PerfThread κ ω σ) : Except Fault (Bool × PerfThread κ ω σ) := do
  let eventThreadList := w.tls.current.perfState.getD []
  let (done, eventThreadList, kernel) ← setupLoop answers 0 eventInfo eventThreadList w.kernel
  let w := { w with
    tls := w.tls.update fun td => { td with perfState := some eventThreadList }
    kernel := kernel }
  if done then return (true, { w with kernel := (perfStartAll eventThreadList w.kernel).2 })
  else return (false, w)

/-- `setupEvents` sets the events of the thread and nothing else in its record. -/
theorem setupEvents_tls {eventInfo : List PerfEventInfo} {answers : Nat → Fin 8 → SetupAnswers}
    {w w' : PerfThread κ ω σ} {done : Bool} (h : setupEvents eventInfo answers w = .ok (done, w')) :
    w'.user = w.user ∧
      ∃ perfState, w'.tls = w.tls.update fun td => { td with perfState := perfState } := by
  obtain ⟨⟨done', eventThreadList, kernel⟩, -, h⟩ := bind_eq_ok.mp h
  dsimp only at h
  split at h
  · cases h
    exact ⟨rfl, _, rfl⟩
  · cases h
    exact ⟨rfl, _, rfl⟩

/-- `close`. -/
def Kernel.close (k : Kernel) (fd : Int) : Kernel :=
  { k with counters := Function.update k.counters fd none }

/-- `perf_unmmap`. -/
def perfUnmmap (mmapBuf : Option Nat) (k : Kernel) : Kernel :=
  match mmapBuf with
  | none => k
  | some buf => { k with
      rings := Function.update k.rings buf none
      unmapped := k.unmapped ++ [buf] }

/-- The body of the loop of `closeEvents`. -/
def closeEvent (et : PerfEventThread) (k : Kernel) : Kernel :=
  perfUnmmap et.mmapBuf (et.fds.foldl (fun k fd => if 0 ≤ fd then k.close fd else k) k)

/-- The loop of `closeEvents`: it runs over the configured events, not over the list. -/
def closeLoop (eventThreadList : List PerfEventThread) : List Nat → Kernel → Except Fault Kernel
  | [], k => .ok k
  | i :: is, k =>
    match eventThreadList[i]? with
    | none => .error .segfault
    | some et => closeLoop eventThreadList is (closeEvent et k)

/-- `PerfManager::closeEvents`. -/
def closeEvents (numEvents : Nat) (w : PerfThread κ ω σ) : Except Fault (PerfThread κ ω σ) :=
  match w.tls.current.perfState with
  | none => .ok { w with tls := (threadDataGet w.tls).2 }
  | some eventThreadList => do
    let kernel ← closeLoop eventThreadList (List.range numEvents)
      (perfStopAll eventThreadList w.kernel).2
    return { w with
      tls := w.tls.update fun td => { td with perfState := none }
      kernel := kernel }

end Events

end DroidPerf
