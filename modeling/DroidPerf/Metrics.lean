import DroidPerf.Attach

/-!
# DroidPerf.Metrics

The metrics that are accumulated for a context (`metrics.cpp`, `metrics.h`) and the XML
object made of them (`xml.cpp`).

The sums are numbers of 64 bits in the source and an index is an `int`; both are integers
here. What is modelled is a process in which no sum overflows and an `int` counts the
metrics. The attributes and the children of an object are maps, from keys to texts and from
ids to objects.
-/

namespace DroidPerf

open Text

/-! ### Accumulating

A list with a value for each metric, which grows to the index that is asked for. -/

/-- `metric_val_t`. -/
@[ext] structure MetricVal where
  i : Int
  r : Int
  deriving DecidableEq, Repr

instance : Zero MetricVal := ⟨⟨0, 0⟩⟩

/-- `operator+` and `operator+=`. -/
instance : Add MetricVal := ⟨fun v1 v2 => ⟨v1.i + v2.i, v1.r + v2.r⟩⟩

@[simp] theorem MetricVal.zero_i : (0 : MetricVal).i = 0 := rfl
@[simp] theorem MetricVal.zero_r : (0 : MetricVal).r = 0 := rfl
@[simp] theorem MetricVal.add_i (v1 v2 : MetricVal) : (v1 + v2).i = v1.i + v2.i := rfl
@[simp] theorem MetricVal.add_r (v1 v2 : MetricVal) : (v1 + v2).r = v1.r + v2.r := rfl

theorem MetricVal.ne_zero_iff {v : MetricVal} : v ≠ 0 ↔ v.i ≠ 0 ∨ v.r ≠ 0 := by
  rw [ne_eq, MetricVal.ext_iff, zero_i, zero_r, not_and_or]

/-- `ContextMetrics`. -/
structure ContextMetrics where
  valList : List MetricVal
  deriving DecidableEq, Repr

/-- The accumulated value of a metric; one that the list does not reach is zero. -/
def ContextMetrics.value (m : ContextMetrics) (metricIdx : Nat) : MetricVal :=
  m.valList.getD metricIdx 0

/-- `MetricInfoManager::getNumMetrics`. -/
def getNumMetrics (s : AttachState) : Nat := s.metricInfoList.length

/-- `ContextMetrics::getMetricVal`: the position in the list, which it extends to have it;
`none` is the null pointer. -/
def getMetricVal (s : AttachState) (m : ContextMetrics) (metricIdx : Int) :
    Option (Nat × ContextMetrics) :=
  if metricIdx < 0 ∨ (getNumMetrics s : Int) ≤ metricIdx then none
  else if m.valList.length ≤ metricIdx.toNat then
    some (metricIdx.toNat,
      ⟨m.valList ++ List.replicate (metricIdx.toNat + 1 - m.valList.length) 0⟩)
  else some (metricIdx.toNat, m)

/-- `ContextMetrics::increment`. -/
def increment (s : AttachState) (m : ContextMetrics) (metricIdx : Int) (val : MetricVal) :
    Bool × ContextMetrics :=
  match getMetricVal s m metricIdx with
  | none => (false, m)
  | some (idx, m) => (true, ⟨m.valList.modify idx (· + val)⟩)

/-! ### The XML object

The child of a metric gets both sums under the same two keys, first the integer one and then
the real one. -/

/-- `XMLObj`. -/
structure XMLObj where
  tagName : List Char
  attrMap : List Char → Option (List Char)
  childrenMap : Nat → Option XMLObj

/-- `XMLObj::XMLObj`. -/
def XMLObj.new (tagName : String) : XMLObj := ⟨tagName.toList, fun _ => none, fun _ => none⟩

/-- `XMLObj::addAttr`. -/
def XMLObj.addAttr (obj : XMLObj) (key value : List Char) : XMLObj :=
  { obj with attrMap := Function.update obj.attrMap key (some ('"' :: (value ++ ['"']))) }

/-- `XMLObj::addChild`. -/
def XMLObj.addChild (obj : XMLObj) (id : Nat) (child : XMLObj) : XMLObj :=
  { obj with childrenMap := Function.update obj.childrenMap id (some child) }

/-- `SET_ATTR`. -/
def XMLObj.setAttr (obj : XMLObj) (key : String) (value : Int) : XMLObj :=
  obj.addAttr key.toList (decimal value)

/-- The child of a metric, as the loop of `createXMLObj` fills it. -/
def createChildObj (i : Nat) (metricVal : MetricVal) : XMLObj :=
  let childObj := (XMLObj.new "metric").setAttr "id" i
  let childObj :=
    if metricVal.i ≠ 0 then (childObj.setAttr "value1" metricVal.i).setAttr "value2" (-1)
    else childObj
  if metricVal.r ≠ 0 then (childObj.setAttr "value1" (-1)).setAttr "value2" metricVal.r
  else childObj

/-- The loop of `createXMLObj` from an index on: the object and `isLargeRedundancy`. -/
def createLoop : Nat → List MetricVal → XMLObj × Bool → XMLObj × Bool
  | _, [], q => q
  | i, metricVal :: valList, (obj, _) =>
    if metricVal.i = 0 ∧ metricVal.r = 0 then createLoop (i + 1) valList (obj, true)
    else createLoop (i + 1) valList (obj.addChild i (createChildObj i metricVal), true)

/-- `createXMLObj` for the metrics of a context; `none` is the null pointer. -/
def createXMLObj (m : ContextMetrics) : Option XMLObj :=
  let (obj, isLargeRedundancy) := createLoop 0 m.valList (XMLObj.new "metrics", false)
  if isLargeRedundancy then some obj else none

end DroidPerf
