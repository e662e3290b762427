import DroidPerf.Profiler
import DroidPerf.Lib.CText

/-!
# DroidPerf.Agent

The callbacks the VM makes (`agent.cpp`).

What a callback asks the VM for is part of its arguments: the stack trace, and for each frame
the method's name, class signature and line table. A callback between its `BLOCK_SAMPLE` and
its `UNBLOCK_SAMPLE` is a list of statements (`Callback.body`), so that other callbacks and
signals can come in between.

A statement is a function on the thread and what it shares with the others. The loops over
frames are folds, with their local variables as the state of the fold (`AllocLoop`), and a loop
that changes a container which it runs over keeps the order of the traversal as a parameter.
-/

namespace DroidPerf

open Text

/-! ### Lines and names

The VM answers with tables and signatures; what the agent writes into its files is computed
from them here. -/

/-- `jvmtiLineNumberEntry`. -/
structure LineNumberEntry where
  startLocation : Int
  lineNumber : Int
  deriving DecidableEq, Repr

/-- A line table that `GetLineNumberTable` returns; it has an entry. -/
structure LineTable where
  first : LineNumberEntry
  rest : List LineNumberEntry
  deriving DecidableEq, Repr

/-- A frame of a stack trace, with what the VM tells about its method. -/
structure Frame where
  method : Nat
  location : Int
  methodName : List Char
  classSignature : List Char
  lineTable : Option LineTable
  deriving DecidableEq, Repr

/-- The scan for the line of a location. -/
def scanLines (location : Int) (lineNumber : Int) : List LineNumberEntry → Int
  | [] => lineNumber
  | entry :: entries =>
    if location < entry.startLocation then lineNumber
    else scanLines location entry.lineNumber entries

/-- The line of a location. -/
def LineTable.line (t : LineTable) (location : Int) : Int :=
  scanLines location t.first.lineNumber t.rest

/-- The line of the table's last entry. -/
def LineTable.lineEnd (t : LineTable) : Int :=
  (t.rest.getLast?.getD t.first).lineNumber

/-- `lineNumber_scope`. -/
def LineTable.scope (t : LineTable) (location : Int) : List Char :=
  decimal (t.line location) ++ '0' :: (decimal t.first.lineNumber ++ '0' :: decimal t.lineEnd)

/-- The class name in a signature: without its first and last character, with dots. -/
def className (signature : List Char) : List Char :=
  ((signature.drop 1).take (signature.length - 2)).map fun c => if c = '/' then '.' else c

/-! ### Objects

The two callbacks for objects share `object_live_cycle`, the set of the recorded sites, and
`object_info`, the same as one text. The counter of memory in use is updated in a statement of
its own, before the frames are looked at. -/

/-- What `ObjectAllocCallback` is called with and what the VM answers in it. -/
structure AllocArgs where
  object : Nat
  size : Nat
  tag : Nat
  classSignature : List Char
  midGetName : Nat
  stackTrace : Option (List Frame)
  deriving DecidableEq, Repr

/-- The update of `active_memory_usage` by an allocation. -/
def countAlloc (size : Nat) (g : Globals) : Globals :=
  { g with activeMemoryUsage := add64 g.activeMemoryUsage size }

/-- The update of `active_memory_usage` by a free. -/
def countFree (tag : Nat) (g : Globals) : Globals :=
  { g with activeMemoryUsage := sub64 g.activeMemoryUsage tag }

/-- Which objects are recorded by their allocation site. -/
def isRecorded (name : List Char) (size : Nat) : Bool :=
  name ≠ [] ∧ 24 < size ∧ ¬ "java.".toList <:+: name ∧ ¬ "android.".toList <:+: name ∧
    ¬ "dalvik.".toList <:+: name ∧ ¬ "sun.".toList <:+: name

/-- `obj_short_identifier`. -/
def objShortIdentifier (name : List Char) (lineNumber : Int) (size : Nat) : List Char :=
  name ++ ";LN".toList ++ decimal lineNumber ++ ";sz".toList ++ decimal size

/-- `obj_identifier`. -/
def objIdentifier (name : List Char) (lineNumber : Int) (size tag : Nat) : List Char :=
  objShortIdentifier name lineNumber size ++ '#' :: decimal tag

/-- The variables of the loop over the frames of an allocation. `_class_name` is
declared outside of the loop and grows in it. -/
structure AllocLoop where
  className : List Char
  globals : Globals
  outputStreamAlloc : Output
  inside : Bool

/-- The critical section under `object_cyc_lock` that adds a site, given by its class
name and line. -/
def addSite (a : AllocArgs) (g : Globals) (site : List Char × Int) : Globals :=
  { g with
    objectLiveCycle := g.objectLiveCycle.insert (objIdentifier site.1 site.2 a.size a.tag)
    objectInfo := g.objectInfo ++ '[' :: (objShortIdentifier site.1 site.2 a.size ++ [']']) }

/-- Recording an allocation site. -/
def recordSite (a : AllocArgs) (lineNumber : Int) (l : AllocLoop) : AllocLoop :=
  if isRecorded l.className a.size then
    let name := l.className ++ ".java".toList
    { l with className := name, globals := addSite a l.globals (name, lineNumber) }
  else l

/-- The body of the loop over the frames of an allocation. -/
def allocFrame (a : AllocArgs) (l : AllocLoop) (frame : Frame) : Except Fault AllocLoop :=
  if frame.method = a.midGetName then .ok l
  else do
    let (scope, l) :=
      match frame.lineTable with
      | none => (['0'], l)
      | some t => (t.scope frame.location, recordSite a (t.line frame.location) l)
    let stream ← l.outputStreamAlloc.writef (.frame scope frame.method)
    return { l with outputStreamAlloc := stream, inside := true }

/-- The part of `ObjectAllocCallback` under its two null checks: the frames from the
root on, and the end of the line. -/
def allocTrace (a : AllocArgs) (frames : List Frame) (count : Nat) (g : Globals) (o : Output) :
    Except Fault (Globals × Output) := do
  let l ← frames.reverse.foldlM (allocFrame a) ⟨className a.classSignature, g, o, false⟩
  if l.inside then do
    let o ← l.outputStreamAlloc.writef (.count count)
    return (l.globals, o)
  else return (l.globals, l.outputStreamAlloc)

/-- `ObjectAllocCallback`. The VM runs `Class.getName` before the last statement. -/
def objectAlloc (a : AllocArgs) : List Stmt :=
  [ fun w =>
      let counter := w.user.locals.objectAllocCounter
      .ok { w with user := { w.user with locals := { w.user.locals with
        objectAllocCounter := Function.update counter a.object (add64 (counter a.object) 1) } } },
    fun w => .ok { w with user := { w.user with globals := countAlloc a.size w.user.globals } },
    fun w =>
      match w.tls.current.contextState, w.tls.current.outputStateAlloc, a.stackTrace with
      | some _, some o, some frames => do
        let (globals, o) ← allocTrace a frames (w.user.locals.objectAllocCounter a.object)
          w.user.globals o
        return { w with
          tls := w.tls.update fun td => { td with outputStateAlloc := some o }
          user := { w.user with globals := globals } }
      | _, _, _ => .ok w ]

/-- `std::stoi`; `none` is an exception. -/
def stoi (s : List Char) : Option Int :=
  let value (negative : Bool) (s : List Char) : Option Int :=
    let digits := s.takeWhile Char.isDigit
    let n : Int := Nat.ofDigitChars 10 digits 0
    let n := if negative then -n else n
    if digits = [] then none else if -2 ^ 31 ≤ n ∧ n < 2 ^ 31 then some n else none
  match s.dropWhile CText.isSpace with
  | '-' :: s => value true s
  | '+' :: s => value false s
  | s => value false s

/-- The part of an identifier before `#`. -/
def shortIdentifier (str : List Char) : List Char := str.takeWhile fun c => c ≠ '#'

/-- The part of an identifier after its first `#`, or all of it. -/
def tagInset (str : List Char) : List Char :=
  if '#' ∈ str then (str.dropWhile fun c => c ≠ '#').drop 1 else str

/-- The loop of `ObjectFreeCallback`, which builds `object_info` anew. When an entry is
erased, the loop moves the iterator to it. -/
def freeLoop (objTag : Nat) : List (List Char) → List Char → Except Fault (List Char)
  | [], objectInfo => .ok objectInfo
  | str :: strs, objectInfo =>
    match stoi (tagInset str) with
    | none => .error .exception
    | some tag =>
      if objTag = (tag % 2 ^ 64).toNat then .error .danglingIterator
      else freeLoop objTag strs (objectInfo ++ shortIdentifier str)

/-- `ObjectFreeCallback`; `traversal` is the order in which the set is run over. -/
def objectFree (traversal : ListSet.Traversal (List Char)) (tag : Nat) (g : Globals) :
    Except Fault Globals := do
  let g := countFree tag g
  let objectInfo ← freeLoop tag (traversal.list g.objectLiveCycle) []
  return { g with objectInfo := objectInfo }

/-! ### Method entry

`MethodEntry` goes through the frames from the leaf on and writes methods that it has not seen. -/

/-- `lineNumber_scope` in `MethodEntry`; the leaf, frame 0, gets no line. -/
def entryScope (frame : Frame) (i : Nat) : List Char :=
  if i ≠ 0 then
    match frame.lineTable with
    | none => ['0']
    | some t => t.scope frame.location
  else ['0']

/-- The body of the loop of `MethodEntry` over the frames. -/
def methodEntryFrame (q : Output × Variables) (frame : Frame × Nat) :
    Except Fault (Output × Variables) := do
  let (o, v) := q
  let (frame, i) := frame
  let callpathVec := v.locals.callpathVec ++ [(frame.method, entryScope frame i)]
  if frame.method ∈ v.locals.methodIdList.elems then
    return (o, { v with locals := { v.locals with callpathVec := callpathVec } })
  else do
    let name := v.globals.objectInfo ++ (className frame.classSignature ++ ".java".toList)
    let o ← o.writef (.methodLine frame.method frame.methodName name)
    return (o, { v with locals := { v.locals with
      callpathVec := callpathVec
      methodIdList := v.locals.methodIdList.insert frame.method } })

/-- `MethodEntry`; `none` is a stack trace that could not be taken. -/
def methodEntry (stackTrace : Option (List Frame)) : List Stmt :=
  [ fun w => .ok { w with user := { w.user with locals := { w.user.locals with
      callpathVec := [] } } },
    fun w =>
      match w.tls.current.outputState, stackTrace with
      | some o, some frames => do
        let (o, v) ← frames.zipIdx.reverse.foldlM methodEntryFrame (o, w.user)
        return { w with tls := w.tls.update fun td => { td with outputState := some o }, user := v }
      | _, _ => .ok w ]

/-! ### Callbacks

Each callback is put between the two macros in the same way. `runCallback` is one that nothing
interrupts. -/

/-- What start-up fixed for the callbacks. -/
structure AgentEnv where
  profiler : ProfilerEnv
  eventInfo : List PerfEventInfo

/-- The callbacks that block samples while they run. -/
inductive Callback where
  | vmDeath
  | threadStart (answers : Nat → Fin 8 → SetupAnswers)
  | threadEnd
  | gcStart
  | gcEnd
  | classLoad
  | classPrepare
  | objectAlloc (args : AllocArgs)
  | methodEntry (stackTrace : Option (List Frame))

/-- What a callback does between `BLOCK_SAMPLE` and `UNBLOCK_SAMPLE`. -/
def Callback.body (env : AgentEnv) : Callback → List Stmt
  | .vmDeath => []
  | .threadStart answers => DroidPerf.threadStart env.eventInfo answers
  | .threadEnd => DroidPerf.threadEnd env.profiler.clientName
  | .gcStart => []
  | .gcEnd => []
  | .classLoad => []
  | .classPrepare => []
  | .objectAlloc args => DroidPerf.objectAlloc args
  | .methodEntry stackTrace => DroidPerf.methodEntry stackTrace

/-- `BLOCK_SAMPLE`. -/
def blockSample (w : AgentThread) : AgentThread :=
  { w with tls := w.tls.update fun td => { td with insideAgent := true } }

/-- `UNBLOCK_SAMPLE`. -/
def unblockSample (w : AgentThread) : AgentThread :=
  { w with tls := w.tls.update fun td => { td with insideAgent := false } }

/-- A callback in one go. -/
def runCallback (env : AgentEnv) (callback : Callback) (w : AgentThread) :
    Except Fault AgentThread := do
  let w ← runStmts (callback.body env) (blockSample w)
  return unblockSample w

end DroidPerf
