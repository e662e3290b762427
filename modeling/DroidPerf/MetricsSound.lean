import DroidPerf.Lib.Run
import DroidPerf.Metrics

/-!
# DroidPerf.MetricsSound

What comes of a sequence of calls that register and increment metrics.

The accumulated values are the totals of the calls (`metricStep_run`). The XML object has a
child for each metric with a value, and the child of a metric with both sums states `-1` in
place of the first: `createXMLObj` sets the two attributes once for either sum, and the second
time overwrites what was set the first (`sums_createChildObj`).

`MetricTotals` says what the calls add up to. One call takes code and totals along
(`metricStep_hasTotals`), and keeps the totals from being negative (`totalsStep_ok`), which is
what tells a sum from the `-1` of the object. `recovers_iff` puts this together with what the
object states of given values (`states_iff`).
-/

namespace DroidPerf

open Text

/-! ### Reading the object

A reader has the numbers in the attributes only. A sum of `-1` is one that was not stated. -/

/-- The number in an attribute, without its quotes. -/
def XMLObj.number (obj : XMLObj) (key : String) : Option Int :=
  (obj.attrMap key.toList).bind fun text => readInt text.tail.dropLast

/-- A sum as it is stated: `-1` stands for zero. -/
def readSum (n : Int) : Int := if n = -1 then 0 else n

/-- The sums that the child of a metric states. -/
def XMLObj.sums (child : XMLObj) : Option MetricVal :=
  match child.number "value1", child.number "value2" with
  | some value1, some value2 => some ⟨readSum value1, readSum value2⟩
  | _, _ => none

/-- The children of an object, if there is one. -/
def xmlChildren (obj : Option XMLObj) (id : Nat) : Option XMLObj :=
  obj.bind fun obj => obj.childrenMap id

/-- The number that was set last under a key. -/
theorem number_setAttr (obj : XMLObj) (key key' : String) (n : Int) :
    (obj.setAttr key' n).number key = if key = key' then some n else obj.number key := by
  unfold XMLObj.number XMLObj.setAttr XMLObj.addAttr
  by_cases h : key = key'
  · subst h
    have hread := readInt_decimal n (t := []) rfl
    rw [List.append_nil] at hread
    simp [hread]
  · have hne : key.toList ≠ key'.toList := fun heq => h (String.toList_injective heq)
    simp [Function.update_of_ne hne, h]

/-- The child of a metric has the index of the metric as its id. -/
theorem number_createChildObj (idx : Nat) (v : MetricVal) :
    (createChildObj idx v).number "id" = some (idx : Int) := by
  unfold createChildObj
  split <;> split <;> simp [number_setAttr]

/-- What the child of a metric states: the second sum, and the first one only where there
is no second. -/
theorem sums_createChildObj (idx : Nat) {v : MetricVal} (hne : v ≠ 0) (hi : 0 ≤ v.i)
    (hr : 0 ≤ v.r) :
    (createChildObj idx v).sums = some ⟨if v.r = 0 then v.i else 0, v.r⟩ := by
  have hi' : readSum v.i = v.i := if_neg (by omega)
  have hr' : readSum v.r = v.r := if_neg (by omega)
  have hzero : readSum (-1) = 0 := rfl
  unfold createChildObj XMLObj.sums
  by_cases hr0 : v.r = 0
  · have hi0 : v.i ≠ 0 := (MetricVal.ne_zero_iff.mp hne).resolve_right (not_not_intro hr0)
    simp [number_setAttr, hr0, hi0, hi', hzero]
  · by_cases hi0 : v.i = 0 <;> simp [number_setAttr, hr0, hi0, hr', hzero]

/-! ### The children

The loop adds a child under every index that has a value, and leaves the other ids alone. -/

/-- One round of the loop adds a child if the metric has a value. -/
theorem createLoop_cons (i : Nat) (v : MetricVal) (valList : List MetricVal) (obj : XMLObj)
    (b : Bool) :
    createLoop i (v :: valList) (obj, b) =
      createLoop (i + 1) valList
        (if v = 0 then obj else obj.addChild i (createChildObj i v), true) := by
  have hv : v.i = 0 ∧ v.r = 0 ↔ v = 0 := by simp [MetricVal.ext_iff]
  rw [createLoop]
  simp only [hv]
  split <;> rfl

/-- After the loop there are the children that were there, and one for each value from the
index on. -/
theorem createLoop_childrenMap (i : Nat) (valList : List MetricVal) (obj : XMLObj) (b : Bool)
    (idx : Nat) :
    (createLoop i valList (obj, b)).1.childrenMap idx =
      if i ≤ idx ∧ valList.getD (idx - i) 0 ≠ 0 then
        some (createChildObj idx (valList.getD (idx - i) 0))
      else obj.childrenMap idx := by
  induction valList generalizing i obj b with
  | nil => simp [createLoop]
  | cons v valList ih =>
      rw [createLoop_cons, ih]
      rcases Nat.lt_trichotomy idx i with hlt | rfl | hgt
      · -- below the index nothing is added
        rw [if_neg (not_and_of_not_left _ (by omega : ¬ i + 1 ≤ idx)),
          if_neg (not_and_of_not_left _ hlt.not_ge)]
        split
        · rfl
        · exact Function.update_of_ne hlt.ne _ _
      · rw [if_neg (not_and_of_not_left _ (Nat.not_succ_le_self idx)), Nat.sub_self,
          List.getD_cons_zero]
        by_cases hv : v = 0
        · simp [hv]
        · simp [hv, XMLObj.addChild]
      · -- above the index, the rest of the loop decides
        have hsub : idx - i = idx - (i + 1) + 1 := by omega
        have hkeep : (if v = 0 then obj else obj.addChild i (createChildObj i v)).childrenMap idx =
            obj.childrenMap idx := by
          split
          · rfl
          · exact Function.update_of_ne hgt.ne' _ _
        rw [hkeep, hsub, List.getD_cons_succ]
        simp only [Nat.succ_le_of_lt hgt, hgt.le]

/-- The flag is set as soon as the list has a value, be it zero or not. -/
theorem createLoop_large (i : Nat) (valList : List MetricVal) (obj : XMLObj) (b : Bool) :
    (createLoop i valList (obj, b)).2 = (b || !valList.isEmpty) := by
  induction valList generalizing i obj b with
  | nil => simp [createLoop]
  | cons v valList ih =>
      rw [createLoop_cons, ih]
      simp

/-- There is a child for each metric with a value, and no other. -/
theorem xmlChildren_createXMLObj (m : ContextMetrics) (idx : Nat) :
    xmlChildren (createXMLObj m) idx =
      if m.value idx = 0 then none else some (createChildObj idx (m.value idx)) := by
  have hchildren : (createLoop 0 m.valList (.new "metrics", false)).1.childrenMap idx =
      if m.value idx = 0 then none else some (createChildObj idx (m.value idx)) := by
    rw [createLoop_childrenMap, Nat.sub_zero]
    show (if 0 ≤ idx ∧ m.value idx ≠ 0 then some (createChildObj idx (m.value idx)) else none) = _
    by_cases hzero : m.value idx = 0 <;> simp [hzero]
  have hlarge := createLoop_large 0 m.valList (.new "metrics") false
  simp only [createXMLObj, xmlChildren, hlarge]
  cases hlist : m.valList with
  | nil => simp [ContextMetrics.value, hlist]
  | cons v valList =>
      rw [hlist] at hchildren
      exact hchildren

/-! ### Incrementing

An index that was registered is incremented; another one changes nothing. -/

section Incrementing

variable {s : AttachState} {m m' : ContextMetrics} {metricIdx : Int} {idx : Nat}

/-- The list is extended by zeros, which changes no value. -/
theorem getMetricVal_spec (h : getMetricVal s m metricIdx = some (idx, m')) :
    idx = metricIdx.toNat ∧ idx < m'.valList.length ∧ m'.value = m.value := by
  unfold getMetricVal at h
  split at h
  · cases h
  · split at h
    · cases h
      refine ⟨rfl, ?_, funext fun j => ?_⟩
      · simp only [List.length_append, List.length_replicate]
        omega
      · simp only [ContextMetrics.value, List.getD_eq_getElem?_getD]
        -- an old value stays, and a new one is zero as before
        by_cases hj : j < m.valList.length
        · rw [List.getElem?_append_left hj]
        · rw [List.getElem?_append_right (not_lt.mp hj), List.getElem?_replicate,
            List.getElem?_eq_none (not_lt.mp hj)]
          split <;> rfl
    · rename_i hlen
      cases h
      exact ⟨rfl, not_le.mp hlen, rfl⟩

/-- Adding at a position of the list adds to the value of this metric only. -/
theorem value_modify (h : idx < m.valList.length) (val : MetricVal) :
    ContextMetrics.value ⟨m.valList.modify idx (· + val)⟩ =
      Function.update m.value idx (m.value idx + val) := by
  funext j
  simp only [ContextMetrics.value, List.getD_eq_getElem?_getD, List.getElem?_modify]
  by_cases hj : j = idx
  · subst hj
    simp [List.getElem?_eq_getElem h]
  · simp [Function.update_of_ne hj, Ne.symm hj, ContextMetrics.value]

/-- An index that was not registered is refused. -/
theorem increment_unregistered (h : metricIdx < 0 ∨ (getNumMetrics s : Int) ≤ metricIdx)
    (val : MetricVal) : increment s m metricIdx val = (false, m) := by
  simp only [increment, getMetricVal, if_pos h]

/-- A registered one gets the value added. -/
theorem increment_registered (h : idx < getNumMetrics s) (val : MetricVal) :
    (increment s m idx val).1 = true ∧
      (increment s m idx val).2.value = Function.update m.value idx (m.value idx + val) := by
  have hidx : ¬ ((idx : Int) < 0 ∨ (getNumMetrics s : Int) ≤ idx) := by omega
  obtain ⟨⟨i, m'⟩, hget⟩ : ∃ p, getMetricVal s m idx = some p := by
    unfold getMetricVal
    rw [if_neg hidx]
    split <;> exact ⟨_, rfl⟩
  obtain ⟨rfl, hlt, hvalue⟩ := getMetricVal_spec hget
  refine ⟨by simp only [increment, hget], ?_⟩
  simp only [increment, hget]
  rw [value_modify hlt, hvalue]

end Incrementing

/-! ### Sequences of calls

A run of the code beside a run of the totals. -/

/-- The calls that register and increment metrics. -/
inductive MetricCall where
  | registerMetric (metricInfo : MetricInfo)
  | increment (metricIdx : Int) (val : MetricVal)
  deriving DecidableEq, Repr

/-- A call, with the index or the truth value that it returns. -/
def metricStep (q : AttachState × ContextMetrics) :
    MetricCall → Option ((AttachState × ContextMetrics) × (Nat ⊕ Bool))
  | .registerMetric metricInfo =>
    let (metricIdx, s) := registerMetric q.1 metricInfo
    some ((s, q.2), .inl metricIdx)
  | .increment metricIdx val =>
    let (done, m) := increment q.1 q.2 metricIdx val
    some ((q.1, m), .inr done)

/-- What the metrics are for: how many indices were handed out, and the sum of all that
was added under each. -/
structure MetricTotals where
  registered : Nat
  sum : Nat → MetricVal

/-- The next index is handed out, and only what comes with an index that was is added. -/
def totalsStep (t : MetricTotals) : MetricCall → Option (MetricTotals × (Nat ⊕ Bool))
  | .registerMetric _ => some (⟨t.registered + 1, t.sum⟩, .inl t.registered)
  | .increment (.ofNat idx) val =>
    if idx < t.registered then
      some (⟨t.registered, Function.update t.sum idx (t.sum idx + val)⟩, .inr true)
    else some (t, .inr false)
  | .increment (.negSucc _) _ => some (t, .inr false)

/-- The totals after a sequence of calls, and what the calls return. -/
def metricTotals (calls : List MetricCall) : Option (MetricTotals × List (Nat ⊕ Bool)) :=
  Run.run totalsStep ⟨0, fun _ => 0⟩ calls

/-- A call increments by no negative number. -/
def MetricCall.NonNeg : MetricCall → Prop
  | .registerMetric _ => True
  | .increment _ val => 0 ≤ val.i ∧ 0 ≤ val.r

instance : DecidablePred MetricCall.NonNeg
  | .registerMetric _ => inferInstanceAs (Decidable True)
  | .increment _ val => inferInstanceAs (Decidable (0 ≤ val.i ∧ 0 ≤ val.r))

/-- No total is negative, and those under the indices that were not handed out are zero. -/
structure MetricTotals.Ok (t : MetricTotals) : Prop where
  nonneg : ∀ idx, 0 ≤ (t.sum idx).i ∧ 0 ≤ (t.sum idx).r
  unused : ∀ idx, t.registered ≤ idx → t.sum idx = 0

/-- No call makes a total negative or adds to an index that was not handed out. -/
theorem totalsStep_ok {t t' : MetricTotals} {call : MetricCall} {answer : Nat ⊕ Bool}
    (h : t.Ok) (hcall : call.NonNeg) (hstep : totalsStep t call = some (t', answer)) : t'.Ok := by
  cases call with
  | registerMetric metricInfo =>
      cases hstep
      exact ⟨h.nonneg, fun idx hidx => h.unused idx (Nat.le_of_succ_le hidx)⟩
  | increment metricIdx val =>
      cases metricIdx with
      | negSucc k =>
          cases hstep
          exact h
      | ofNat idx =>
          rw [totalsStep] at hstep
          split at hstep
          · rename_i hidx
            cases hstep
            refine ⟨fun j => ?_, fun j hj => ?_⟩
            · by_cases hj : j = idx
              · subst hj
                obtain ⟨hi, hr⟩ := h.nonneg j
                simp only [Function.update_self, MetricVal.add_i, MetricVal.add_r]
                exact ⟨Int.add_nonneg hi hcall.1, Int.add_nonneg hr hcall.2⟩
              · simp only [Function.update_of_ne hj]
                exact h.nonneg j
            · simp only [Function.update_of_ne (hidx.trans_le hj).ne']
              exact h.unused j hj
          · cases hstep
            exact h

/-- The metrics have been registered and incremented to these totals. -/
def HasTotals (q : AttachState × ContextMetrics) (t : MetricTotals) : Prop :=
  getNumMetrics q.1 = t.registered ∧ q.2.value = t.sum

/-- The step lemma: a call is answered as the totals say and leaves them. -/
theorem metricStep_hasTotals {q : AttachState × ContextMetrics} {t : MetricTotals}
    (call : MetricCall) (h : HasTotals q t) :
    ∃ q' answer t', metricStep q call = some (q', answer) ∧
      totalsStep t call = some (t', answer) ∧ HasTotals q' t' := by
  obtain ⟨s, m⟩ := q
  obtain ⟨hcount, hvalue⟩ := h
  dsimp only at hcount hvalue
  cases call with
  | registerMetric metricInfo =>
      refine ⟨_, _, _, rfl, congrArg some (Prod.ext rfl (congrArg Sum.inl hcount.symm)), ?_, hvalue⟩
      simp only [getNumMetrics, List.length_append, List.length_singleton]
      exact congrArg (· + 1) hcount
  | increment metricIdx val =>
      cases metricIdx with
      | negSucc k =>
          -- a negative index is refused by both
          have hinc : increment s m (.negSucc k) val = (false, m) :=
            increment_unregistered (.inl (Int.negSucc_lt_zero k)) val
          refine ⟨(s, m), .inr false, t, ?_, rfl, hcount, hvalue⟩
          simp only [metricStep, hinc]
      | ofNat idx =>
          by_cases hidx : idx < t.registered
          · obtain ⟨hdone, hsum⟩ := increment_registered (s := s) (m := m) (hcount ▸ hidx) val
            refine ⟨(s, (increment s m idx val).2), .inr true, _, ?_, if_pos hidx, hcount, ?_⟩
            · simp only [metricStep, Int.ofNat_eq_natCast, hdone]
            · rw [← hvalue]
              exact hsum
          · have hinc : increment s m idx val = (false, m) :=
              increment_unregistered (.inr (by omega)) val
            refine ⟨(s, m), .inr false, t, ?_, if_neg hidx, hcount, hvalue⟩
            simp only [metricStep, Int.ofNat_eq_natCast, hinc]

/-- Every sequence of calls is answered as the totals say and leaves them. -/
theorem metricStep_run {calls : List MetricCall} (h : ∀ call ∈ calls, call.NonNeg) :
    ∃ q answers t, Run.run metricStep (newProcess, ⟨[]⟩) calls = some (q, answers) ∧
      metricTotals calls = some (t, answers) ∧ HasTotals q t ∧ t.Ok := by
  have hstart : HasTotals (newProcess, ⟨[]⟩) ⟨0, fun _ => 0⟩ := ⟨rfl, rfl⟩
  have hok : MetricTotals.Ok ⟨0, fun _ => 0⟩ := ⟨fun _ => ⟨le_refl _, le_refl _⟩, fun _ _ => rfl⟩
  have hstep : ∀ q t call, HasTotals q t ∧ t.Ok → call.NonNeg →
      ∃ q' answer t', metricStep q call = some (q', answer) ∧
        totalsStep t call = some (t', answer) ∧ HasTotals q' t' ∧ t'.Ok := by
    intro q t call ⟨hhas, hok⟩ hcall
    obtain ⟨q', answer, t', hq, ht, hhas'⟩ := metricStep_hasTotals call hhas
    exact ⟨q', answer, t', hq, ht, hhas', totalsStep_ok hok hcall ht⟩
  obtain ⟨q, answers, t, hrun, hspec, hhas⟩ := Run.run_refines_of_admitted hstep calls _ _
    ⟨hstart, hok⟩ (Run.admitted_of_forall h)
  exact ⟨q, answers, t, hrun, Run.run_of_specRun hspec, hhas⟩

/-! ### What the object states

The exact condition, first for given values and then for every sequence of calls. -/

/-- The object states these sums: both of them for each metric that has any, and nothing
else. -/
structure States (obj : Option XMLObj) (sum : Nat → MetricVal) : Prop where
  recovers : ∀ idx, sum idx ≠ 0 → ∃ child, xmlChildren obj idx = some child ∧
    child.number "id" = some (idx : Int) ∧ child.sums = some (sum idx)
  nothing_else : ∀ idx child, xmlChildren obj idx = some child → sum idx ≠ 0

/-- The object states the sums exactly when no metric has two of them. -/
theorem states_iff {m : ContextMetrics}
    (hnonneg : ∀ idx, 0 ≤ (m.value idx).i ∧ 0 ≤ (m.value idx).r) :
    States (createXMLObj m) m.value ↔ ∀ idx, (m.value idx).i = 0 ∨ (m.value idx).r = 0 := by
  constructor
  · intro h idx
    by_cases hzero : m.value idx = 0
    · exact .inl (by rw [hzero]; rfl)
    · obtain ⟨child, hchild, -, hsums⟩ := h.recovers idx hzero
      rw [xmlChildren_createXMLObj, if_neg hzero] at hchild
      cases hchild
      rw [sums_createChildObj idx hzero (hnonneg idx).1 (hnonneg idx).2] at hsums
      -- with a second sum, the first one is stated as zero
      have hi := congrArg MetricVal.i (Option.some.inj hsums)
      dsimp only at hi
      split at hi
      · exact .inr ‹_›
      · exact .inl hi.symm
  · intro h
    refine ⟨fun idx hne => ?_, fun idx child hchild => ?_⟩
    · refine ⟨createChildObj idx (m.value idx), ?_, number_createChildObj idx _, ?_⟩
      · rw [xmlChildren_createXMLObj, if_neg hne]
      · rw [sums_createChildObj idx hne (hnonneg idx).1 (hnonneg idx).2]
        refine congrArg some (MetricVal.ext ?_ rfl)
        dsimp only
        split
        · rfl
        · exact ((h idx).resolve_right ‹_›).symm
    · rw [xmlChildren_createXMLObj] at hchild
      split at hchild
      · cases hchild
      · assumption

/-- The calls are answered as the totals say, they leave them, and the object states
them. -/
def Recovers (calls : List MetricCall) : Prop :=
  ∃ q answers t, Run.run metricStep (newProcess, ⟨[]⟩) calls = some (q, answers) ∧
    metricTotals calls = some (t, answers) ∧ q.2.value = t.sum ∧ States (createXMLObj q.2) t.sum

/-- No metric is given both kinds of numbers. -/
def OneKind (calls : List MetricCall) : Prop :=
  ∀ p ∈ metricTotals calls, ∀ idx < p.1.registered, (p.1.sum idx).i = 0 ∨ (p.1.sum idx).r = 0

instance : DecidablePred OneKind := fun calls =>
  inferInstanceAs (Decidable (∀ p ∈ metricTotals calls, ∀ idx < p.1.registered, _ ∨ _))

/-- **Metrics.** Over every sequence of calls, an increment fails exactly where its metric is
not registered and then changes nothing; the object states what was accumulated if and only if
no metric was given both kinds of numbers. -/
theorem recovers_iff (calls : List MetricCall) (h : ∀ call ∈ calls, call.NonNeg) :
    Recovers calls ↔ OneKind calls := by
  obtain ⟨q, answers, t, hrun, htotals, ⟨-, hvalue⟩, hok⟩ := metricStep_run h
  have hstates := states_iff (m := q.2) (by rw [hvalue]; exact hok.nonneg)
  rw [hvalue] at hstates
  constructor
  · rintro ⟨q', answers', t', hrun', htotals', -, hobj⟩ p hp idx hidx
    rw [hrun] at hrun'
    rw [htotals] at htotals' hp
    cases hrun'
    cases htotals'
    cases hp
    exact hstates.mp hobj idx
  · intro hone
    refine ⟨q, answers, t, hrun, htotals, hvalue, hstates.mpr fun idx => ?_⟩
    -- an index that was not handed out has no sums
    by_cases hidx : idx < t.registered
    · exact hone _ htotals idx hidx
    · rw [hok.unused idx (not_lt.mp hidx)]
      exact .inl rfl

/-- Two metrics of one kind each, and an increment that comes too early. -/
def separateCalls : List MetricCall :=
  [.registerMetric ⟨"GENERIC".toList, [], 0⟩, .increment 0 ⟨5, 0⟩, .increment 1 ⟨0, 1⟩,
    .registerMetric ⟨"GENERIC".toList, [], 0⟩, .increment 1 ⟨0, 3⟩, .increment 0 ⟨2, 0⟩]

/-- Its object states both sums. -/
theorem separateCalls_recovered : Recovers separateCalls :=
  (recovers_iff separateCalls (by decide)).mpr (by decide)

/-- A metric given one number of either kind. -/
def mixedCalls : List MetricCall :=
  [.registerMetric ⟨"GENERIC".toList, [], 0⟩, .increment 0 ⟨1, 1⟩]

/-- The first sum of the metric is not in the object. -/
theorem mixedCalls_not_recovered : ¬ Recovers mixedCalls := by
  rintro ⟨q, answers, t, hrun, htotals, -, hobj⟩
  cases hrun
  cases htotals
  obtain ⟨child, hchild, -, hsums⟩ := hobj.recovers 0 (by decide)
  rw [xmlChildren_createXMLObj] at hchild
  cases hchild
  exact absurd hsums (by decide)

end DroidPerf
