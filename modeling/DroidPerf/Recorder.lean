import DroidPerf.Session
import DroidPerf.Documents
import DroidPerf.MethodRoundTripSound

/-!
# DroidPerf.Recorder

What the agent is for: a recorder that keeps, for every thread, the methods that it entered,
the samples that it took and the objects that it allocated.

The recorder knows nothing of records, guards, events and streams. Its state after an event is
a function of the state before it, and of how many samples a signal delivered.

This is the abstract side of the agent, stated for its own sake. That the code does nothing
else is shown afterwards, event by event, with `outputOf` as the relation between the two.
-/

namespace DroidPerf

/-! ### Recordings

What a thread has recorded is a list of rows, one of samples and one of allocations, in the
order in which they came. -/

/-- What a thread has recorded since it was started. A sample is the call path with the
memory in use, an allocation its call path with the number of allocations of the object. -/
structure Recording where
  rows : List MethodRow
  samples : List TakenSample
  allocs : List Sampled
  deriving DecidableEq, Repr

/-- The call path of a stack trace, from the root on; the leaf has no line. -/
def entryPath (frames : List Frame) : List (Nat × List Char) :=
  frames.zipIdx.reverse.map fun frame => (frame.1.method, entryScope frame.1 frame.2)

/-- The line scope of a frame of an allocation. -/
def allocScope (frame : Frame) : List Char :=
  match frame.lineTable with
  | none => ['0']
  | some t => t.scope frame.location

/-- The call path of an allocation, without `Class.getName`. -/
def allocPath (args : AllocArgs) (frames : List Frame) : List (Nat × List Char) :=
  (frames.reverse.filter fun frame => frame.method ≠ args.midGetName).map fun frame =>
    (frame.method, allocScope frame)

namespace Recording

/-- Nothing yet. -/
def empty : Recording := ⟨[], [], []⟩

/-- What is written about the method of a frame. -/
def row (objectInfo : List Char) (frame : Frame) : MethodRow :=
  ⟨frame.method, frame.methodName, objectInfo ++ (className frame.classSignature ++ ".java".toList)⟩

/-- The method of a frame gets a row, unless it has one. -/
def enter (objectInfo : List Char) (r : Recording) (frame : Frame) : Recording :=
  if frame.method ∈ r.rows.map MethodRow.method then r
  else { r with rows := r.rows ++ [row objectInfo frame] }

/-- The methods of a stack trace, from the root on. -/
def enterAll (objectInfo : List Char) (frames : List Frame) (r : Recording) : Recording :=
  frames.reverse.foldl (enter objectInfo) r

end Recording

/-- A thread as the recorder sees it; `live` is its recording while it runs. -/
structure RecordedThread where
  stack : List (Nat × List Char)
  counter : Nat → Nat
  live : Option Recording

namespace RecordedThread

/-- A thread that has not been started. -/
def start : RecordedThread := ⟨[], fun _ => 0, none⟩

/-- A thread that has just been started. -/
def started : RecordedThread := ⟨[], fun _ => 0, some .empty⟩

/-- A method is entered. -/
def methodEntry (objectInfo : List Char) (stackTrace : Option (List Frame)) (t : RecordedThread) :
    RecordedThread :=
  match t.live, stackTrace with
  | some r, some frames =>
    { t with stack := entryPath frames, live := some (r.enterAll objectInfo frames) }
  | _, _ => { t with stack := [] }

/-- An object is counted. -/
def count (object : Nat) (t : RecordedThread) : RecordedThread :=
  { t with counter := Function.update t.counter object (add64 (t.counter object) 1) }

/-- An allocation is recorded. -/
def alloc (args : AllocArgs) (t : RecordedThread) : RecordedThread :=
  match t.live, args.stackTrace with
  | some r, some frames =>
    { t with live := some { r with
      allocs := r.allocs ++ [(allocPath args frames, t.counter args.object)] } }
  | _, _ => t

/-- The sites that an allocation adds to the text of the live objects. -/
def sites (args : AllocArgs) (t : RecordedThread) : List (List Char × Int) :=
  match t.live, args.stackTrace with
  | some _, some frames => allocSites args frames.reverse (className args.classSignature)
  | _, _ => []

/-- Samples are taken. -/
def sample (usage taken : Nat) (t : RecordedThread) : RecordedThread :=
  { t with live := t.live.map fun r => { r with
    samples := r.samples ++ List.replicate taken ⟨t.stack, usage⟩ } }

end RecordedThread

/-! ### The recorder

An event changes one thread, and the two global variables that allocations share. -/

/-- The threads, the global variables, and the recordings of the threads that have ended. -/
structure Recorder where
  threads : Nat → RecordedThread
  globals : Globals
  ended : List (Nat × Option Recording)

namespace Recorder

/-- Before the first event. -/
def start : Recorder := ⟨fun _ => .start, .start, []⟩

/-- A thread changes. -/
def set (r : Recorder) (tid : Nat) (t : RecordedThread) : Recorder :=
  { r with threads := Function.update r.threads tid t }

/-- The first part of an allocation. -/
def allocEnter (r : Recorder) (tid : Nat) (args : AllocArgs) : Recorder :=
  { r.set tid ((r.threads tid).count args.object) with globals := countAlloc args.size r.globals }

/-- The second part of an allocation. -/
def allocLeave (r : Recorder) (tid : Nat) (args : AllocArgs) : Recorder :=
  { r.set tid ((r.threads tid).alloc args) with
    globals := ((r.threads tid).sites args).foldl (addSite args) r.globals }

/-- The recorder after an event. -/
def next (r : Recorder) (taken : Nat) : AgentEvent → Recorder
  | .call tid (.threadStart _) => r.set tid .started
  | .call tid .threadEnd =>
    { r.set tid { r.threads tid with live := none } with
      ended := r.ended ++ [(tid, (r.threads tid).live)] }
  | .call tid (.methodEntry stackTrace) =>
    r.set tid ((r.threads tid).methodEntry r.globals.objectInfo stackTrace)
  | .call tid (.objectAlloc args) => (r.allocEnter tid args).allocLeave tid args
  | .call _ _ => r
  | .objectAllocEnter tid args => r.allocEnter tid args
  | .objectAllocLeave tid args => r.allocLeave tid args
  | .objectFree traversal tag =>
    { r with globals := { countFree tag r.globals with
      objectInfo := (traversal.list r.globals.objectLiveCycle).flatMap shortIdentifier } }
  | .signal tid _ _ => r.set tid ((r.threads tid).sample r.globals.activeMemoryUsage taken)
  | .kernel _ _ => r

/-- The recorder after events, `taken` being the numbers of samples. -/
def Reaches (events : List AgentEvent) (taken : List Nat) (r : Recorder) : Prop :=
  Run.SpecRun (fun r event n r' => r' = r.next n event) start events taken r

end Recorder

/-! ### The streams of a recording

The pieces that the code writes for a recording. `outputOf` gives a thread's streams from them. -/

/-- The pieces for an allocation. -/
def allocPieces (a : Sampled) : List Fragment :=
  if a.1 = [] then [] else a.1.map framePiece ++ [.count a.2]

/-- The pieces in the stream of a kind. -/
def Recording.pieces (r : Recording) : OutputKind → List Fragment
  | .method => r.rows.map fun row => .methodLine row.method row.name row.className
  | .trace => samplePieces (r.samples.map TakenSample.trace)
  | .alloc => r.allocs.flatMap allocPieces
  | .cachemiss => samplePieces (r.samples.map TakenSample.cachemiss)

/-- A thread's stream with the given pieces. -/
def streamWith (kind : OutputKind) (tid : Nat) (pieces : List Fragment) : Output :=
  pieces.foldl Output.writeb (newOutput kind.name tid)

/-- The streams of a thread, which it has while it runs. -/
def outputOf (tid : Nat) (live : Option Recording) : ThreadOutput where
  tid := tid
  method := live.map fun r => streamWith .method tid (r.pieces .method)
  trace := live.map fun r => streamWith .trace tid (r.pieces .trace)
  alloc := live.map fun r => streamWith .alloc tid (r.pieces .alloc)
  cachemiss := live.map fun r => streamWith .cachemiss tid (r.pieces .cachemiss)

end DroidPerf
