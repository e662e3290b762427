import DroidPerf.Lib.Dict
import DroidPerf.Documents
import DroidPerf.Sections

/-!
# DroidPerf.Conversion

The converter as a whole (`android-converter.py`): from the names and the texts of the files in
`Documents` to the profiles.

There are three sections, for cache misses, accesses and allocations, in this order; they share
one context tree. An exception ends the program, and the profiles of the sections before it
have been written by then.

The first two sections differ in how they show leaves and are one definition, with that as a
parameter. The third one has its own loop over the frames of a trace, which stops at a frame of
an unknown method and leaves the whole line out. What is read is a function from names to
texts, as `open` and `read` with the encoding of the files are not in the program's hands.
-/

namespace DroidPerf

open Text

open DataBuilder (Builder Call Profile)

/-! ### The section for allocations

Its loop has three outcomes: an exception, a line left out, and the messages of a line. The
context tree has grown also where the line is left out. -/

/-- The loop over the frames of a trace, at the frames `is`. It stops at a frame whose method
is not known, which is `none`; the context of that frame has been made by then. -/
def allocContextMsgs (methodMap : Int → Option MethodInfo) (t : List (List Char × List Char)) :
    List Nat → List ContextMsg → List Context → Option (Option (List ContextMsg) × List Context)
  | [], contextMsgList, contexts => some (some contextMsgList, contexts)
  | i :: is, contextMsgList, contexts => do
    let (contextId, contexts) ← getContextId contexts 0 (t.take (i + 1))
    let ctxt ← contexts[contextId]?
    match methodMap ctxt.mid with
    | some info =>
      let contextMsgList := contextMsgList ++ [contextMsg false contextId ctxt info]
      allocContextMsgs methodMap t is contextMsgList contexts
    | none => return (none, contexts)

/-- The body of the loop over the lines of a file. A line with a method that is not known has
no sample. -/
def allocCall (methodMap : Int → Option MethodInfo) (line : List Char) (contexts : List Context) :
    Option (List Call × List Context) :=
  if " |".toList <:+: line then do
    let trace ← readTrace line
    let (contextMsgList, contexts) ←
      allocContextMsgs methodMap trace.t (List.range trace.t.length) [] contexts
    match contextMsgList with
    | some contextMsgList => return ([.addSample contextMsgList [⟨0, trace.m, []⟩]], contexts)
    | none => return ([], contexts)
  else some ([], contexts)

/-! ### Sections

A section is a kind of file and a function on lines; its loops over lines and threads are the
same for all. -/

/-- A section: the kind of the files that it reads, and the body of its loop over their
lines. -/
structure Section where
  kind : OutputKind
  lineCall : (Int → Option MethodInfo) → List Char → List Context →
    Option (List Call × List Context)

/-- The section for cache misses. -/
def Section.cachemiss : Section := ⟨.cachemiss, traceCall false⟩

/-- The section for accesses. -/
def Section.access : Section := ⟨.trace, traceCall true⟩

/-- The section for allocations. -/
def Section.alloc : Section := ⟨.alloc, allocCall⟩

namespace Section

/-- The loop over the lines of a file. -/
def linesCalls (s : Section) (methodMap : Int → Option MethodInfo) :
    List (List Char) → List Context → Option (List Call × List Context)
  | [], contexts => some ([], contexts)
  | line :: lines, contexts => do
    let (call, contexts) ← s.lineCall methodMap line contexts
    let (calls, contexts) ← s.linesCalls methodMap lines contexts
    return (call ++ calls, contexts)

/-- The loop over the threads. -/
def threadsCalls (s : Section) :
    List ThreadFiles → List Context → Option (List Call × List Context)
  | [], contexts => some ([], contexts)
  | files :: threads, contexts => do
    let methodMap ← files.methodMap
    let (call, contexts) ← s.linesCalls methodMap files.trace contexts
    let (calls, contexts) ← s.threadsCalls threads contexts
    return (call ++ calls, contexts)

end Section

/-! ### Threads

The dictionary of the program, with its entries in the order in which they were made, since the
order of the threads is that of the samples in the profile. -/

/-- `threadProfileMap`: for the id of a thread, its files by their kinds. -/
abbrev ProfileDict : Type := Dict (List Char) (Dict (List Char) (List Char))

/-- The body of the loop over `filelist`. -/
def ProfileDict.addFile (threads : ProfileDict) (f : List Char) : Option ProfileDict := do
  let (tid, kind) ← profileKey f
  return threads.set tid (((threads.get? tid).getD .empty).set kind f)

/-- `threadProfileMap`, after the loop. -/
def profileDict (filelist : List (List Char)) : Option ProfileDict :=
  filelist.foldlM ProfileDict.addFile .empty

/-- `cachemiss_thread`, `trace_thread` or `alloc_thread`. -/
def ProfileDict.threadsOf (threads : ProfileDict) (kind : OutputKind) : List (List Char) :=
  threads.entries.flatMap fun entry =>
    (entry.2.keys.filter fun content => content = kind.name.toList).map fun _ => entry.1

/-- The files of the threads that a section goes through; `read` is the text of a file. A
thread of which there is only one file is left out. -/
def ProfileDict.sectionFiles (threads : ProfileDict) (read : List Char → List Char)
    (kind : OutputKind) : List (List Char) → Option (List ThreadFiles)
  | [] => some []
  | key :: keys => do
    let files ← threads.get? key
    if files.entries.length < 2 then threads.sectionFiles read kind keys
    else do
      let methodFile ← files.get? OutputKind.method.name.toList
      let traceFile ← files.get? kind.name.toList
      let rest ← threads.sectionFiles read kind keys
      return ⟨readLines (read methodFile), readLines (read traceFile)⟩ :: rest

/-! ### The program

An exception is `none` in a section, and it ends the list of profiles. -/

/-- The calls of a section, and the context tree that it leaves. -/
def Section.calls (s : Section) (read : List Char → List Char) (threads : ProfileDict)
    (contexts : List Context) : Option (List Call × List Context) := do
  let files ← threads.sectionFiles read s.kind (threads.threadsOf s.kind)
  let (calls, contexts) ← s.threadsCalls files contexts
  return (.addMetricType 1 "cpu cycle".toList "cpu cycle".toList :: calls, contexts)

/-- The calls of sections, up to the first that does not come to its end. -/
def sectionRuns (read : List Char → List Char) (threads : ProfileDict) :
    List Section → List Context → List (List Call)
  | [], _ => []
  | s :: sections, contexts =>
    match s.calls read threads contexts with
    | some (calls, contexts) => calls :: sectionRuns read threads sections contexts
    | none => []

/-- The profiles of sections, up to the first that the builder does not accept. -/
def profilesOf (hash : List Char → Int) : List (List Call) → List Profile
  | [] => []
  | calls :: runs =>
    match Builder.new.run hash calls with
    | some builder => builder.profile :: profilesOf hash runs
    | none => []

/-- The profiles that the converter writes, in their order. -/
def convert (hash : List Char → Int) (read : List Char → List Char) (filelist : List (List Char)) :
    List Profile :=
  match profileDict filelist with
  | some threads => profilesOf hash
      (sectionRuns read threads [.cachemiss, .access, .alloc] rootContexts)
  | none => []

end DroidPerf
