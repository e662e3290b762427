import DroidPerf.DataBuilder

/-!
# DroidPerf.Sections

The sections of the converter that fill a profile from the files of the threads
(`android-converter.py`).

A section only ever adds to its builder, so it is modelled by the calls that it makes; the
context tree is shared by all sections. The calls are made into a profile by the builder
afterwards, which gives the same as making each of them at once.
-/

namespace DroidPerf

open Text

open DataBuilder (Builder Call)

/-- The lines of the method file of a thread, and of the file that the section reads. -/
structure ThreadFiles where
  method : List (List Char)
  trace : List (List Char)

/-- `method_map` of a thread. -/
def ThreadFiles.methodMap (files : ThreadFiles) : Option (Int → Option MethodInfo) :=
  files.method.foldlM addMethod builtinMethods

/-- The body of the loop over the lines of a file. -/
def traceCall (leafInFull : Bool) (methodMap : Int → Option MethodInfo) (line : List Char)
    (contexts : List Context) : Option (List Call × List Context) :=
  if " |".toList <:+: line then do
    let trace ← readTrace line
    let (contextMsgList, contexts) ← contextMsgs leafInFull methodMap trace.t contexts
    return ([.addSample contextMsgList [⟨0, trace.m, []⟩]], contexts)
  else some ([], contexts)

/-- The loop over the lines of a file. -/
def traceCalls (leafInFull : Bool) (methodMap : Int → Option MethodInfo) :
    List (List Char) → List Context → Option (List Call × List Context)
  | [], contexts => some ([], contexts)
  | line :: lines, contexts => do
    let (call, contexts) ← traceCall leafInFull methodMap line contexts
    let (calls, contexts) ← traceCalls leafInFull methodMap lines contexts
    return (call ++ calls, contexts)

/-- The loop over the threads. -/
def sectionCalls (leafInFull : Bool) :
    List ThreadFiles → List Context → Option (List Call × List Context)
  | [], contexts => some ([], contexts)
  | files :: threads, contexts => do
    let methodMap ← files.methodMap
    let (call, contexts) ← traceCalls leafInFull methodMap files.trace contexts
    let (calls, contexts) ← sectionCalls leafInFull threads contexts
    return (call ++ calls, contexts)

/-- A section: the calls for its metric type and for the samples of the threads. -/
def profileCalls (leafInFull : Bool) (threads : List ThreadFiles) (contexts : List Context) :
    Option (List Call) := do
  let (calls, _) ← sectionCalls leafInFull threads contexts
  return .addMetricType 1 "cpu cycle".toList "cpu cycle".toList :: calls

/-- The profile of the accesses, whose leaves are shown in full. -/
def accessProfile (hash : List Char → Int) (threads : List ThreadFiles) (contexts : List Context) :
    Option DataBuilder.Profile := do
  let calls ← profileCalls true threads contexts
  let builder ← Builder.new.run hash calls
  return builder.profile

end DroidPerf
