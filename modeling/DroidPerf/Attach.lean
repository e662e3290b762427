import DroidPerf.PerfInterface
import DroidPerf.Lib.CText
import DroidPerf.Lib.Text

/-!
# DroidPerf.Attach

Loading and attaching the agent (`JVM::init` in `agent.cpp`, `argument.cpp`, `Profiler::init`,
`process_event_list` in `perf_interface.cpp`, `profiler_support.cpp`, `metrics.cpp`).

The calls into the virtual machine, into `libpfm` and for the signal handler succeed. `npos` is
the largest number of type `size_t`.

The variables that an attach works on are those of the process, so they outlive it:
`AttachState` is passed from one attach to the next. Text is taken apart with the functions of
the standard library, which throw where theirs do.
-/

namespace DroidPerf

open Text

/-! ### Strings

Of the library functions, what the source relies on: where they throw, and that a length beyond
the end is cut. -/

/-- `std::string::npos`. -/
def npos : Nat := 2 ^ 64 - 1

/-- `std::string::find`. -/
def findText (text : List Char) : List Char → Nat
  | [] => if text = [] then 0 else npos
  | c :: s =>
    if text <+: c :: s then 0
    else
      let pos := findText text s
      if pos = npos then npos else pos + 1

/-- `std::string::substr`. -/
def substr (s : List Char) (pos n : Nat) : Except Fault (List Char) :=
  if s.length < pos then .error .exception else .ok ((s.drop pos).take n)

/-- `std::stoull` in base 10. -/
def stoull (s : List Char) : Except Fault Nat :=
  let s := s.dropWhile CText.isSpace
  let negative := s.head? = some '-'
  let digits := (if negative ∨ s.head? = some '+' then s.tail else s).takeWhile Char.isDigit
  match readNat digits with
  | none => .error .exception
  | some v => if v < 2 ^ 64 then .ok (if negative then sub64 0 v else v) else .error .exception

/-- `boost::to_upper` in the C locale: `toupper`, letter by letter. -/
def toUpper (s : List Char) : List Char := s.map Char.toUpper

/-- `Tokenize`: what stands between the delimiters, if anything does. -/
def tokenize (delimiter : Char) (str : List Char) : List (List Char) :=
  (str.splitOn delimiter).filter fun token => token ≠ []

/-! ### Metrics

The table of metrics grows by three entries for each event. There are four places for the ids
of the watched ones, and the fifth is an assertion that fails. -/

/-- `metric_info_t`. -/
structure MetricInfo where
  clientName : List Char
  name : List Char
  threshold : Nat
  deriving DecidableEq, Repr

/-- `NUM_WATERMARK_METRICS`. -/
def numWatermarkMetrics : Nat := 4

/-- `MAX_NUM_EVENTS`. -/
def maxNumEvents : Nat := 10

/-- The variables of the process that an attach works on. `eventInfo` has the first
`num_events` entries of `event_info`. -/
structure AttachState where
  metricInfoList : List MetricInfo
  curWatermarkId : Nat
  pebsMetricId : List Int
  eventInfo : List PerfEventInfo
  clientName : List Char
  deriving DecidableEq, Repr

/-- A new process. -/
def newProcess : AttachState :=
  ⟨[], 0, List.replicate numWatermarkMetrics (-1), [], []⟩

/-- `MetricInfoManager::registerMetric`. -/
def registerMetric (s : AttachState) (metricInfo : MetricInfo) : Nat × AttachState :=
  (s.metricInfoList.length, { s with metricInfoList := s.metricInfoList ++ [metricInfo] })

/-- `MetricInfoManager::getMetricInfo`. -/
def getMetricInfo (s : AttachState) (metricIdx : Int) : Option MetricInfo :=
  if metricIdx < 0 then none else s.metricInfoList[metricIdx.toNat]?

/-- `SetupWatermarkMetric`. -/
def setupWatermarkMetric (s : AttachState) (metricId : Nat) : Except Fault AttachState :=
  if s.curWatermarkId = numWatermarkMetrics then .error .assertion
  else .ok { s with
    pebsMetricId := s.pebsMetricId.set s.curWatermarkId metricId
    curWatermarkId := s.curWatermarkId + 1 }

/-- `GetClientName`. -/
def getClientName (s : AttachState) : Except Fault (List Char) :=
  match s.pebsMetricId.find? fun metricId => metricId ≠ -1 with
  | none => .error .assertion
  | some metricId =>
    match getMetricInfo s metricId with
    | none => .error .assertion
    | some metricInfo => .ok metricInfo.clientName

/-! ### Events

An event of the option string is `CLIENT::NAME@RATE` with a digit of precision before the `@`,
or a name alone. -/

/-- What an event of the option string says. -/
structure ParsedEvent where
  clientName : List Char
  name : List Char
  threshold : Nat
  deriving DecidableEq, Repr

/-- The first part of the loop of `process_event_list`. Positions wrap around when there is
no client; the level of precision is read and kept nowhere in this model. -/
def parseEvent (event : List Char) : Except Fault ParsedEvent := do
  let pos := findText "::".toList event
  let clientName ← substr event 0 pos
  let pos2 := findText "@".toList event
  if pos2 ≠ npos then do
    let name ← substr event (add64 pos 2) (sub64 (sub64 pos2 pos) 2)
    let sampleRateStr ← substr event (pos2 + 1) npos
    let threshold ← stoull sampleRateStr
    let samplePreciseLevel ← substr event (sub64 pos2 1) 1
    let _ ← stoull samplePreciseLevel
    return ⟨toUpper clientName, name, threshold % 2 ^ 32⟩
  else return ⟨toUpper clientName, event, 0⟩

/-- The rest of the loop: three metrics, the first of them watched. -/
def addEvent (s : AttachState) (e : ParsedEvent) : Except Fault AttachState :=
  let metricInfo : MetricInfo := ⟨e.clientName, e.name, e.threshold⟩
  let (metricId1, s) := registerMetric s metricInfo
  let (metricId2, s) := registerMetric s metricInfo
  let (metricId3, s) := registerMetric s metricInfo
  let info : PerfEventInfo :=
    ⟨metricId1, metricId2, metricId3, String.ofList e.name, e.threshold,
      perfAttrInit e.threshold perfSampleTid⟩
  setupWatermarkMetric { s with eventInfo := s.eventInfo ++ [info] } metricId1

/-- The body of the loop. -/
def processEvent (s : AttachState) (event : List Char) : Except Fault AttachState := do
  let e ← parseEvent event
  addEvent s e

/-- `process_event_list`. -/
def processEventList (s : AttachState) (eventList : List (List Char)) :
    Except Fault AttachState := do
  assert (eventList.length ≤ maxNumEvents)
  eventList.foldlM processEvent { s with eventInfo := [] }

/-- `Profiler::init`. -/
def profilerInit (s : AttachState) (eventList : List (List Char)) : Except Fault AttachState := do
  let s ← processEventList s eventList
  let clientName ← getClientName s
  return { s with clientName := s.clientName ++ toUpper clientName }

/-- `JVM::init`. -/
def jvmInit (arg : List Char) (s : AttachState) : Except Fault AttachState :=
  profilerInit s (tokenize ',' arg)

/-- Several attaches with the same options. -/
def attach (arg : List Char) : Nat → Except Fault AttachState
  | 0 => .ok newProcess
  | n + 1 => do
    let s ← attach arg n
    jvmInit arg s

end DroidPerf
