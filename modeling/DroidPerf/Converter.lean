import DroidPerf.Lib.Text
import Mathlib.Logic.Function.Basic
import Mathlib.Data.List.Infix

/-!
# DroidPerf.Converter

The converter from the agent's files to a profile (`android-converter.py`), up to the messages
it hands to the profile builder.

A Python exception is `none`. The section for cache misses and the one for memory accesses read
their files alike; they differ in the messages for the leaves.

`context_array` is a list that contexts are appended to, and a context holds the positions of
its children rather than the objects. `method_map` is a function, as only look-ups are made in
it.
-/

namespace DroidPerf

open Text

/-! ### The method file

A later line for the same id takes the place of an earlier one, so the map is updated line by
line. -/

/-- An entry of `method_map`. -/
structure MethodInfo where
  name : List Char
  filePath : List Char
  deriving DecidableEq, Repr

/-- `method_map` before the first line. -/
def builtinMethods : Int → Option MethodInfo := fun mid =>
  if mid = -1 then some ⟨"ROOT".toList, " ".toList⟩
  else if mid = 0 then some ⟨"<NULL>".toList, " ".toList⟩
  else none

/-- The body of the loop over the lines of the method file. -/
def addMethod (methodMap : Int → Option MethodInfo) (line : List Char) :
    Option (Int → Option MethodInfo) :=
  match line.splitOn ' ' with
  | id :: name :: filePath :: _ => do
    let mid ← readInt id
    return Function.update methodMap mid (some ⟨rstrip filePath ++ '.' :: name, filePath⟩)
  | _ => some methodMap

/-- `method_map` after the method file. -/
def readMethods (text : List Char) : Option (Int → Option MethodInfo) :=
  (readLines text).foldlM addMethod builtinMethods

/-! ### Trace files

A line has a metric behind ` |`; lines without one are passed over, and anything else that is
not as expected raises an exception. -/

/-- A line of a trace: the frames, each a method id and a line scope, and the metric. -/
structure Trace where
  t : List (List Char × List Char)
  m : Int
  deriving DecidableEq, Repr

/-- `[frame.split(":")[1], frame.split(":")[0]]`. -/
def readFrame (frame : List Char) : Option (List Char × List Char) :=
  match frame.splitOn ':' with
  | scope :: method :: _ => some (method, scope)
  | _ => none

/-- A line that has a metric. -/
def readTrace (line : List Char) : Option Trace :=
  match split " |".toList line with
  | path :: metric :: _ => do
    let m ← readInt metric
    let t ← (path.splitOn ' ').mapM readFrame
    return ⟨t, m⟩
  | _ => none

/-- The loop over the lines of a trace file. -/
def readTraceLines : List (List Char) → Option (List Trace)
  | [] => some []
  | line :: lines =>
    if " |".toList <:+: line then do
      let trace ← readTrace line
      let traces ← readTraceLines lines
      return trace :: traces
    else readTraceLines lines

/-- The traces of a file. -/
def readTraces (text : List Char) : Option (List Trace) := readTraceLines (readLines text)

/-! ### Contexts

`getContextId` recurses over the frames of a call path. The recursion limit of the interpreter
is not in the model: the agent cuts a stack at 128 frames. -/

/-- A node of the context tree; `children` maps a frame to the index of a node. -/
structure Context where
  id : Nat
  pid : Nat
  mid : Int
  lineNo : Int
  children : List (List Char × Nat)
  deriving DecidableEq, Repr

/-- `context_array` with `context_root`. -/
def rootContexts : List Context := [⟨0, 0, -1, 0, []⟩]

/-- A new node, put into `context_array` and among the children of its parent. -/
def addContext (contexts : List Context) (parent : Nat) (key : List Char) (new : Context) :
    List Context :=
  (contexts ++ [new]).modify parent fun node =>
    { node with children := (key, new.id) :: node.children }

/-- The child of a node for a frame, which is added when there is none. -/
def childContext (contexts : List Context) (parent : Nat) (frame : List Char × List Char) :
    Option (Nat × List Context) := do
  let node ← contexts[parent]?
  let key := frame.1 ++ ':' :: frame.2
  match node.children.lookup key with
  | some child => return (child, contexts)
  | none =>
    let mid ← readInt frame.1
    let lineNo ← readInt frame.2
    let child := contexts.length
    return (child, addContext contexts parent key ⟨child, node.id, mid, lineNo, []⟩)

/-- `getContextId`. -/
def getContextId (contexts : List Context) (parent : Nat) :
    List (List Char × List Char) → Option (Nat × List Context)
  | [] => none
  | frame :: frames => do
    let (child, contexts) ← childContext contexts parent frame
    if frames = [] then do
      let node ← contexts[child]?
      return (node.id, contexts)
    else getContextId contexts child frames

/-- `ContextMsg`. -/
structure ContextMsg where
  contextId : Nat
  filePath : List Char
  name : List Char
  systemName : List Char
  startLine : Int
  lineNo : Int
  deriving DecidableEq, Repr

/-- The message for a context; the part up to the last bracket is cut off unless the
context is shown in full. -/
def contextMsg (full : Bool) (contextId : Nat) (ctxt : Context) (info : MethodInfo) : ContextMsg :=
  let cut := fun s => if full then s else afterLast ']' s
  ⟨contextId, cut info.filePath, cut info.name, cut info.name, ctxt.lineNo, ctxt.lineNo⟩

/-- The body of the loop over the frames of a trace. -/
def addContextMsg (leafInFull : Bool) (methodMap : Int → Option MethodInfo)
    (t : List (List Char × List Char)) (q : List ContextMsg × List Context) (i : Nat) :
    Option (List ContextMsg × List Context) := do
  let (contextMsgList, contexts) := q
  let (contextId, contexts) ← getContextId contexts 0 (t.take (i + 1))
  let ctxt ← contexts[contextId]?
  match methodMap ctxt.mid with
  | some info =>
    let full := leafInFull ∧ i = t.length - 1
    return (contextMsgList ++ [contextMsg full contextId ctxt info], contexts)
  | none => return (contextMsgList, contexts)

/-- The messages for a trace. The section for memory accesses shows leaves in full. -/
def contextMsgs (leafInFull : Bool) (methodMap : Int → Option MethodInfo)
    (t : List (List Char × List Char)) (contexts : List Context) :
    Option (List ContextMsg × List Context) :=
  (List.range t.length).foldlM (addContextMsg leafInFull methodMap t) ([], contexts)

end DroidPerf
