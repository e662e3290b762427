import DroidPerf.Range
import DroidPerf.Lib.Run
import Mathlib.Data.Set.Pairwise.Basic
import Mathlib.Order.CompletePartialOrder

/-!
# DroidPerf.RangeSound

What a `RangeSet` is for its clients.

As long as a client inserts only ranges that share no key with a stored one, the set is a
finite map from keys: every run of its operations is a run of `RangeMapStep`. `insert` itself
does not look for overlaps, so what its result promises holds exactly for clients that do
(`insertsFaithful_iff`).

For the refinement, each operation has an equation on disjoint ranges, and a `…_step` lemma
makes it a step of the map; `rangeSet_step` collects them and the library's
`run_refines_of_admitted` gives runs. For the exact condition on insertions, one call that is
not clear of the stored ranges breaks the promise at once or leaves ranges that overlap
(`InsertsFaithful.clear`), so the promise forces each range to be clear of all before it, and
the induction is on the calls.
-/

namespace DroidPerf

variable {K D : Type} [LinearOrder K]

/-! ### The operations on disjoint ranges

With disjoint ranges an operation can be told without the order of the map: a filter of the
stored ranges, or the range with a given start or key. -/

namespace RangeSet

variable {rs : RangeSet K D} {start stop : K}

/-- The stored ranges are in the order of their starts. -/
theorem ranges_sorted (rs : RangeSet K D) : rs.ranges.Pairwise fun r r' => r.start < r'.start := by
  refine List.pairwise_map.mpr (List.Pairwise.imp_of_mem ?_ rs.startMap.sorted)
  intro e e' he he' hlt
  rw [← (rs.proper e he).1, ← (rs.proper e' he').1]
  exact hlt

/-- The `lower_bound` of a start are the ranges that start there or later. -/
theorem lowerBound_ranges (rs : RangeSet K D) (start : K) :
    (rs.startMap.lowerBound start).map Prod.snd = rs.ranges.filter fun r => start ≤ r.start := by
  rw [SortedMap.lowerBound_eq, ranges, List.filter_map]
  refine congrArg (List.map Prod.snd) (List.filter_congr fun e he => ?_)
  rw [Function.comp, (rs.proper e he).1]

/-- The early end of the loop of `getRangesInside` loses nothing: a later range ends later
too. -/
theorem getRangesInside_eq (hd : rs.Disjoint) (hle : start ≤ stop) :
    rs.getRangesInside start stop =
      .ok (rs.ranges.filter fun r => start ≤ r.start ∧ r.stop ≤ stop) := by
  have hmono : (rs.ranges.filter fun r => start ≤ r.start).Pairwise fun r r' =>
      decide (r'.stop ≤ stop) = true → decide (r.stop ≤ stop) = true := by
    refine List.Pairwise.imp_of_mem ?_ (rs.ranges_sorted.filter _)
    intro r r' hr hr' hlt hstop
    have hbefore := hd r (List.mem_of_mem_filter hr) r' (List.mem_of_mem_filter hr') hlt
    have hproper := start_le_stop (List.mem_of_mem_filter hr')
    exact decide_eq_true ((hbefore.le.trans hproper).trans (of_decide_eq_true hstop))
  simp only [getRangesInside, decide_eq_true hle, assert_true, ok_bind, lowerBound_ranges,
    SortedMap.takeWhile_eq_filter hmono, List.filter_filter]
  refine congrArg Except.ok (List.filter_congr fun r _ => ?_)
  rw [Bool.decide_and, Bool.and_comm]

/-- A stored range is alone inside its own bounds. -/
theorem filter_inside_of_mem {r : Range K D} (hd : rs.Disjoint) (hr : r ∈ rs.ranges) :
    (rs.ranges.filter fun r' => r.start ≤ r'.start ∧ r'.stop ≤ r.stop) = [r] := by
  have hother : ∀ r' ∈ rs.ranges, r.start ≤ r'.start ∧ r'.stop ≤ r.stop ↔ r' = r := by
    intro r' hr'
    constructor
    · intro hinside
      rcases eq_or_lt_of_le hinside.1 with heq | hlt
      · exact start_inj hr' hr heq.symm
      · have hbefore := hd r hr r' hr' hlt
        have hproper := start_le_stop hr'
        exact absurd (hproper.trans hinside.2) (not_le.mpr hbefore)
    · rintro rfl
      exact ⟨le_refl _, le_refl _⟩
  have hnodup : rs.ranges.Nodup := rs.ranges_sorted.imp fun hlt heq => hlt.ne (congrArg _ heq)
  refine List.perm_singleton.mp ((List.perm_ext_iff_of_nodup (hnodup.filter _)
    (List.nodup_singleton r)).mpr fun r' => ?_)
  rw [List.mem_filter, decide_eq_true_iff, List.mem_singleton]
  constructor
  · intro hmem
    exact (hother r' hmem.1).mp hmem.2
  · rintro rfl
    exact ⟨hr, (hother r' hr).mpr rfl⟩

/-- A lookup finds nothing exactly if no range contains the key. -/
theorem getRange_eq_none (hd : rs.Disjoint) {k : K} :
    rs.getRange k = none ↔ ∀ r ∈ rs.ranges, ¬ (r.start ≤ k ∧ k ≤ r.stop) := by
  constructor
  · intro hnone r hr hk
    rw [(getRange_eq_some hd).mpr ⟨hr, hk⟩] at hnone
    cases hnone
  · intro hmiss
    by_contra hsome
    obtain ⟨r, hr⟩ := Option.ne_none_iff_exists'.mp hsome
    obtain ⟨hmem, hk⟩ := (getRange_eq_some hd).mp hr
    exact hmiss r hmem hk

/-- A start that no range has is not removed. -/
theorem remove_of_not_mem (hd : rs.Disjoint) (hmiss : ∀ r ∈ rs.ranges, r.start ≠ start) :
    rs.remove start = (false, rs) := by
  unfold remove
  split
  · rfl
  · rename_i r hget
    rw [if_neg (hmiss r ((getRange_eq_some hd).mp hget).1)]

/-- A stored range is removed by its bounds. -/
theorem removeRange_of_mem {r : Range K D} (hd : rs.Disjoint) (hr : r ∈ rs.ranges) :
    ∃ rs', rs.removeRange r.start r.stop = .ok (true, rs') ∧
      ∀ r', r' ∈ rs'.ranges ↔ r' ∈ rs.ranges ∧ r'.start ≠ r.start := by
  have hinside := getRangesInside_eq hd (start_le_stop hr)
  rw [filter_inside_of_mem hd hr] at hinside
  refine ⟨⟨rs.startMap.erase r.start, fun e he => rs.proper e (SortedMap.mem_erase.mp he).1⟩, ?_,
    fun r' => mem_ranges_erase⟩
  simp only [removeRange, hinside, ok_bind, and_self, if_true]
  rfl

/-- Bounds that no range has remove nothing. -/
theorem removeRange_of_not_mem (hd : rs.Disjoint) (hle : start ≤ stop)
    (hmiss : ∀ r ∈ rs.ranges, ¬ (r.start = start ∧ r.stop = stop)) :
    rs.removeRange start stop = .ok (false, rs) := by
  simp only [removeRange, getRangesInside_eq hd hle, ok_bind]
  split
  · rename_i r hinside
    have hr : r ∈ rs.ranges := by
      refine List.mem_of_mem_filter (p := fun r => decide (start ≤ r.start ∧ r.stop ≤ stop)) ?_
      rw [hinside]
      exact List.mem_singleton_self r
    rw [if_neg (hmiss r hr)]
    rfl
  · rfl

end RangeSet

/-! ### A map from keys

The abstract component is a set of ranges. What an operation returns is told by membership in
it, and the clients' duty (`Admits`) is to ask for bounds in order and to insert clear of the
rest. -/

/-- The keys inside a range. -/
def Range.keys (r : Range K D) : Set K := Set.Icc r.start r.stop

/-- The operations of a `RangeSet`. -/
inductive RangeOp (K D : Type) where
  | insert (start stop : K) (data : D)
  | remove (start : K)
  | removeRange (start stop : K)
  | getRange (probeKey : K)
  | getData (probeKey : K)
  | getRangesInside (start stop : K)

/-- What an operation returns. -/
inductive RangeRet (K D : Type) where
  | flag (ret : Bool)
  | range (retRange : Option (Range K D))
  | data (data : Option D)
  | ranges (retVec : List (Range K D))

/-- One operation; `none` is a failed assertion. -/
def RangeSet.step (rs : RangeSet K D) : RangeOp K D → Option (RangeSet K D × RangeRet K D)
  | .insert start stop data =>
    (rs.insert start stop data).toOption.map fun q => (q.2, .flag q.1)
  | .remove start => some ((rs.remove start).2, .flag (rs.remove start).1)
  | .removeRange start stop =>
    (rs.removeRange start stop).toOption.map fun q => (q.2, .flag q.1)
  | .getRange probeKey => some (rs, .range (rs.getRange probeKey))
  | .getData probeKey => some (rs, .data (rs.getData probeKey))
  | .getRangesInside start stop =>
    (rs.getRangesInside start stop).toOption.map fun retVec => (rs, .ranges retVec)

/-- What a client may ask for: bounds in order, as the code asserts, and a new range that
shares no key with a stored one. -/
def RangeSet.Admits (rs : RangeSet K D) : RangeOp K D → Prop
  | .insert start stop _ =>
    start ≤ stop ∧ ∀ r ∈ rs.ranges, r.stop < start ∨ stop < r.start
  | .removeRange start stop => start ≤ stop
  | .getRangesInside start stop => start ≤ stop
  | _ => True

/-- The abstract component: a set of ranges, each key in at most one of them. -/
inductive RangeMapStep :
    Set (Range K D) → RangeOp K D → RangeRet K D → Set (Range K D) → Prop
  | insert {A : Set (Range K D)} {start stop : K} {data : D} :
      RangeMapStep A (.insert start stop data) (.flag true) (insert ⟨start, stop, data⟩ A)
  | remove {A : Set (Range K D)} {r : Range K D} : r ∈ A →
      RangeMapStep A (.remove r.start) (.flag true) (A \ {r})
  | removeMiss {A : Set (Range K D)} {start : K} : (∀ r ∈ A, r.start ≠ start) →
      RangeMapStep A (.remove start) (.flag false) A
  | removeRange {A : Set (Range K D)} {r : Range K D} : r ∈ A →
      RangeMapStep A (.removeRange r.start r.stop) (.flag true) (A \ {r})
  | removeRangeMiss {A : Set (Range K D)} {start stop : K} :
      (∀ r ∈ A, ¬ (r.start = start ∧ r.stop = stop)) →
      RangeMapStep A (.removeRange start stop) (.flag false) A
  | getRange {A : Set (Range K D)} {r : Range K D} {k : K} : r ∈ A → k ∈ r.keys →
      RangeMapStep A (.getRange k) (.range (some r)) A
  | getRangeMiss {A : Set (Range K D)} {k : K} : (∀ r ∈ A, k ∉ r.keys) →
      RangeMapStep A (.getRange k) (.range none) A
  | getData {A : Set (Range K D)} {r : Range K D} {k : K} : r ∈ A → k ∈ r.keys →
      RangeMapStep A (.getData k) (.data (some r.data)) A
  | getDataMiss {A : Set (Range K D)} {k : K} : (∀ r ∈ A, k ∉ r.keys) →
      RangeMapStep A (.getData k) (.data none) A
  | getRangesInside {A : Set (Range K D)} {start stop : K} {retVec : List (Range K D)} :
      (retVec.Pairwise fun r r' => r.start < r'.start) →
      (∀ r, r ∈ retVec ↔ r ∈ A ∧ r.keys ⊆ Set.Icc start stop) →
      RangeMapStep A (.getRangesInside start stop) (.ranges retVec) A

/-- The stored ranges are those of the abstract set, and share no keys. -/
structure RangesIn (rs : RangeSet K D) (A : Set (Range K D)) : Prop where
  disjoint : rs.Disjoint
  eq : A = {r | r ∈ rs.ranges}

namespace RangesIn

variable {rs : RangeSet K D} {A : Set (Range K D)}

/-- The abstract ranges share no keys. -/
theorem pairwiseDisjoint (h : RangesIn rs A) : A.PairwiseDisjoint Range.keys := by
  obtain ⟨hd, rfl⟩ := h
  intro r hr r' hr' hne
  refine Set.disjoint_left.mpr fun k hk hk' => ?_
  rcases lt_trichotomy r.start r'.start with hlt | heq | hlt
  · exact absurd (hk'.1.trans hk.2) (not_le.mpr (hd r hr r' hr' hlt))
  · exact hne (RangeSet.start_inj hr hr' heq)
  · exact absurd (hk.1.trans hk'.2) (not_le.mpr (hd r' hr' r hr hlt))

/-- Membership in the abstract set. -/
theorem mem_iff (h : RangesIn rs A) {r : Range K D} : r ∈ A ↔ r ∈ rs.ranges := by
  rw [h.eq]
  rfl

/-- Removing a range leaves the others. -/
theorem diff {rs' : RangeSet K D} {r : Range K D} (h : RangesIn rs A) (hr : r ∈ rs.ranges)
    (hrs' : ∀ r', r' ∈ rs'.ranges ↔ r' ∈ rs.ranges ∧ r'.start ≠ r.start) :
    RangesIn rs' (A \ {r}) := by
  obtain ⟨hd, rfl⟩ := h
  refine ⟨fun r₁ hr₁ r₂ hr₂ hlt => ?_, Set.ext fun r' => ?_⟩
  · exact hd r₁ ((hrs' r₁).mp hr₁).1 r₂ ((hrs' r₂).mp hr₂).1 hlt
  · rw [Set.mem_sdiff, Set.mem_singleton_iff, Set.mem_ofPred_eq, Set.mem_ofPred_eq, hrs']
    refine and_congr_right fun hr' => not_congr ?_
    exact ⟨fun heq => congrArg Range.start heq, RangeSet.start_inj hr' hr⟩

end RangesIn

/-- A lookup finds the range of a key. -/
theorem getRange_step {rs : RangeSet K D} (hd : rs.Disjoint) (k : K) :
    (∃ r ∈ rs.ranges, k ∈ r.keys ∧ rs.getRange k = some r) ∨
      (∀ r ∈ rs.ranges, k ∉ r.keys) ∧ rs.getRange k = none := by
  cases hget : rs.getRange k with
  | some r =>
      obtain ⟨hr, hk⟩ := (RangeSet.getRange_eq_some hd).mp hget
      exact .inl ⟨r, hr, hk, rfl⟩
  | none => exact .inr ⟨(RangeSet.getRange_eq_none hd).mp hget, rfl⟩

section Steps

variable {rs : RangeSet K D} {A : Set (Range K D)}

/-- The operation on the ranges is a step of the map. -/
def StepsAs (rs : RangeSet K D) (A : Set (Range K D)) (op : RangeOp K D) : Prop :=
  ∃ rs' ret A', rs.step op = some (rs', ret) ∧ RangeMapStep A op ret A' ∧ RangesIn rs' A'

/-- An insertion into a gap adds the range to the abstract set. -/
theorem insert_step {start stop : K} {data : D} (h : RangesIn rs A)
    (hop : rs.Admits (.insert start stop data)) : StepsAs rs A (.insert start stop data) := by
  obtain ⟨rs', hins, hranges, hd'⟩ := RangeSet.insert_of_clear h.disjoint hop.1 hop.2 data
  refine ⟨rs', .flag true, insert ⟨start, stop, data⟩ A, ?_, .insert, hd', ?_⟩
  · simp [RangeSet.step, hins, Except.toOption]
  · ext r
    rw [Set.mem_insert_iff, h.mem_iff, Set.mem_ofPred_eq, hranges, or_comm]

/-- A range is removed by its start, or there is none. -/
theorem remove_step {start : K} (h : RangesIn rs A) : StepsAs rs A (.remove start) := by
  by_cases hstart : ∃ r ∈ rs.ranges, r.start = start
  · obtain ⟨r, hr, rfl⟩ := hstart
    obtain ⟨rs', hrem, hranges⟩ := RangeSet.remove_of_mem h.disjoint hr
    exact ⟨rs', .flag true, A \ {r}, by simp [RangeSet.step, hrem], .remove (h.mem_iff.mpr hr),
      h.diff hr hranges⟩
  · have hmiss : ∀ r ∈ rs.ranges, r.start ≠ start := fun r hr heq => hstart ⟨r, hr, heq⟩
    refine ⟨rs, .flag false, A, ?_, .removeMiss fun r hr => hmiss r (h.mem_iff.mp hr), h⟩
    simp [RangeSet.step, RangeSet.remove_of_not_mem h.disjoint hmiss]

/-- A range is removed by its bounds, or there is none. -/
theorem removeRange_step {start stop : K} (h : RangesIn rs A)
    (hop : rs.Admits (.removeRange start stop)) : StepsAs rs A (.removeRange start stop) := by
  by_cases hstored : ∃ r ∈ rs.ranges, r.start = start ∧ r.stop = stop
  · obtain ⟨r, hr, rfl, rfl⟩ := hstored
    obtain ⟨rs', hrem, hranges⟩ := RangeSet.removeRange_of_mem h.disjoint hr
    refine ⟨rs', .flag true, A \ {r}, ?_, .removeRange (h.mem_iff.mpr hr), h.diff hr hranges⟩
    simp [RangeSet.step, hrem, Except.toOption]
  · have hmiss : ∀ r ∈ rs.ranges, ¬ (r.start = start ∧ r.stop = stop) :=
      fun r hr heq => hstored ⟨r, hr, heq⟩
    refine ⟨rs, .flag false, A, ?_, .removeRangeMiss fun r hr => hmiss r (h.mem_iff.mp hr), h⟩
    simp [RangeSet.step, RangeSet.removeRange_of_not_mem h.disjoint hop hmiss, Except.toOption]

/-- The ranges inside some bounds are listed in order. -/
theorem getRangesInside_step {start stop : K} (h : RangesIn rs A)
    (hop : rs.Admits (.getRangesInside start stop)) :
    StepsAs rs A (.getRangesInside start stop) := by
  refine ⟨rs, .ranges (rs.ranges.filter fun r => start ≤ r.start ∧ r.stop ≤ stop), A, ?_,
    .getRangesInside (rs.ranges_sorted.filter _) fun r => ?_, h⟩
  · simp only [RangeSet.step, RangeSet.getRangesInside_eq h.disjoint hop]
    rfl
  · rw [List.mem_filter, decide_eq_true_iff, h.mem_iff]
    refine and_congr_right fun hr => ?_
    exact (Set.Icc_subset_Icc_iff (RangeSet.start_le_stop hr)).symm

/-- Every operation on disjoint ranges is a step of the map. -/
theorem rangeSet_step (op : RangeOp K D) (h : RangesIn rs A) (hop : rs.Admits op) :
    StepsAs rs A op := by
  cases op with
  | insert start stop data => exact insert_step h hop
  | remove start => exact remove_step h
  | removeRange start stop => exact removeRange_step h hop
  | getRange k =>
      refine ⟨rs, .range (rs.getRange k), A, rfl, ?_, h⟩
      rcases getRange_step h.disjoint k with ⟨r, hr, hk, hget⟩ | ⟨hmiss, hget⟩
      · rw [hget]
        exact .getRange (h.mem_iff.mpr hr) hk
      · rw [hget]
        exact .getRangeMiss fun r hr => hmiss r (h.mem_iff.mp hr)
  | getData k =>
      refine ⟨rs, .data (rs.getData k), A, rfl, ?_, h⟩
      rcases getRange_step h.disjoint k with ⟨r, hr, hk, hget⟩ | ⟨hmiss, hget⟩
      · rw [RangeSet.getData, hget]
        exact .getData (h.mem_iff.mpr hr) hk
      · rw [RangeSet.getData, hget]
        exact .getDataMiss fun r hr => hmiss r (h.mem_iff.mp hr)
  | getRangesInside start stop => exact getRangesInside_step h hop

end Steps

/-- **Refinement.** Every run of the operations of a `RangeSet` in which the bounds are in
order and each new range shares no key with the stored ones is a run of the map from keys: it
succeeds, answers as the map does, and leaves the ranges that the map has, no two of which
share a key. -/
theorem rangeSet_refines_rangeMap (ops : List (RangeOp K D))
    (hops : Run.Admitted RangeSet.step RangeSet.Admits (.empty : RangeSet K D) ops) :
    ∃ rs rets A, Run.run RangeSet.step (.empty : RangeSet K D) ops = some (rs, rets) ∧
      Run.SpecRun RangeMapStep ∅ ops rets A ∧ A = {r | r ∈ rs.ranges} ∧
      A.PairwiseDisjoint Range.keys := by
  have hempty : RangesIn (.empty : RangeSet K D) ∅ := by
    refine ⟨fun r hr => ?_, ?_⟩
    · cases hr
    · ext r
      simp [RangeSet.empty, RangeSet.ranges, SortedMap.empty]
  obtain ⟨rs, rets, A, hrun, hspec, h⟩ :=
    Run.run_refines_of_admitted (fun rs A op h hop => rangeSet_step op h hop) ops _ _ hempty hops
  exact ⟨rs, rets, A, hrun, hspec, h.eq, h.pairwiseDisjoint⟩

/-- Two ranges that touch, looked up at their common border. -/
theorem rangeSet_refines_rangeMap_border :
    ∃ (rs : RangeSet Nat Nat) (rets : List (RangeRet Nat Nat)) (A : Set (Range Nat Nat)),
      Run.run RangeSet.step .empty
        [.insert 0 4 1, .insert 5 9 2, .getData 5, .getRangesInside 1 9, .remove 0] =
          some (rs, rets) ∧
      Run.SpecRun RangeMapStep ∅
        [.insert 0 4 1, .insert 5 9 2, .getData 5, .getRangesInside 1 9, .remove 0] rets A ∧
      A = {r | r ∈ rs.ranges} ∧ A.PairwiseDisjoint Range.keys := by
  refine rangeSet_refines_rangeMap _ ⟨⟨by decide, fun r hr => by cases hr⟩, fun s r hs => ?_⟩
  cases hs
  refine ⟨⟨by decide, fun r hr => ?_⟩, fun s r hs => ?_⟩
  · obtain rfl : r = ⟨0, 4, 1⟩ := List.mem_singleton.mp hr
    exact .inl (by decide)
  cases hs
  refine ⟨trivial, fun s r hs => ?_⟩
  cases hs
  refine ⟨(by decide : 1 ≤ 9), fun s r hs => ?_⟩
  cases hs
  exact ⟨trivial, fun s r hs => trivial⟩

/-! ### What `insert` returns

The result of `insert` is true whether or not the range was stored, and nothing is compared
with the ranges that are there. -/

/-- What `insert` is expected to do in a sequence of calls: the stored ranges stay
disjoint, the result is true exactly when the call stored the range, and nothing changes
when it is false. -/
def RangeSet.InsertsFaithful (rs : RangeSet K D) : List (Range K D) → Prop
  | [] => rs.Disjoint
  | r :: inserted => rs.Disjoint ∧ ∀ ret rs', rs.insert r.start r.stop r.data = .ok (ret, rs') →
      (ret = true ↔ r ∉ rs.ranges ∧ r ∈ rs'.ranges) ∧ (ret = false → rs' = rs) ∧
      rs'.InsertsFaithful inserted

/-- The ranges are disjoint while the promise holds. -/
theorem RangeSet.InsertsFaithful.disjoint {rs : RangeSet K D} {inserted : List (Range K D)}
    (h : rs.InsertsFaithful inserted) : rs.Disjoint := by
  cases inserted with
  | nil => exact h
  | cons r inserted => exact h.1

/-- A range that shares a key with a stored one breaks the promise: either its start is
taken and it is not stored, or it overlaps. -/
theorem RangeSet.InsertsFaithful.clear {rs : RangeSet K D} {r : Range K D}
    {inserted : List (Range K D)} (h : rs.InsertsFaithful (r :: inserted))
    (hle : r.start ≤ r.stop) : ∀ r' ∈ rs.ranges, r'.stop < r.start ∨ r.stop < r'.start := by
  obtain ⟨hd, hstep⟩ := h
  obtain ⟨rs', hins, hranges⟩ := rs.insert_of_le hle r.data
  obtain ⟨hret, -, hrest⟩ := hstep true rs' hins
  obtain ⟨hnew, hstored⟩ := hret.mp rfl
  have hd' := hrest.disjoint
  intro r' hr'
  have hr'' : r' ∈ rs'.ranges := (hranges r').mpr (.inl hr')
  have hfresh := (((hranges r).mp hstored).resolve_left hnew).2
  rcases lt_trichotomy r'.start r.start with hlt | heq | hlt
  · exact .inl (hd' r' hr'' r hstored hlt)
  · exact absurd heq (hfresh r' hr')
  · exact .inr (hd' r hstored r' hr'' hlt)

/-- From any disjoint ranges the promise is kept by the sequences of ranges that are clear
of these and of each other. -/
theorem RangeSet.insertsFaithful_iff_clear {rs : RangeSet K D} (hd : rs.Disjoint)
    {inserted : List (Range K D)} (hle : ∀ r ∈ inserted, r.start ≤ r.stop) :
    rs.InsertsFaithful inserted ↔
      (∀ r ∈ inserted, ∀ r' ∈ rs.ranges, r'.stop < r.start ∨ r.stop < r'.start) ∧
        inserted.Pairwise fun r r' => r.stop < r'.start ∨ r'.stop < r.start := by
  -- the induction is on the calls still to come, from any set of disjoint ranges
  induction inserted generalizing rs with
  | nil => simpa [InsertsFaithful] using hd
  | cons r inserted ih =>
      obtain ⟨hler, hle⟩ := List.forall_mem_cons.mp hle
      rw [List.forall_mem_cons, List.pairwise_cons]
      constructor
      · intro h
        have hclear := h.clear hler
        obtain ⟨rs', hins, hranges, hd'⟩ := insert_of_clear hd hler hclear r.data
        obtain ⟨-, -, hrest⟩ := h.2 true rs' hins
        obtain ⟨hclear', hpair⟩ := (ih hd' hle).mp hrest
        refine ⟨⟨hclear, fun r₁ hr₁ r' hr' => ?_⟩, fun r₁ hr₁ => ?_, hpair⟩
        · exact hclear' r₁ hr₁ r' ((hranges r').mpr (.inl hr'))
        · exact hclear' r₁ hr₁ r ((hranges r).mpr (.inr rfl))
      · rintro ⟨⟨hclear, hclear'⟩, hpairr, hpair⟩
        obtain ⟨rs', hins, hranges, hd'⟩ := insert_of_clear hd hler hclear r.data
        refine ⟨hd, fun ret rs'' hins' => ?_⟩
        rw [hins] at hins'
        cases hins'
        have hnew : r ∉ rs.ranges := fun hr => start_ne_of_clear hler hclear hr rfl
        refine ⟨iff_of_true rfl ⟨hnew, (hranges r).mpr (.inr rfl)⟩, nofun,
          (ih hd' hle).mpr ⟨fun r₁ hr₁ r' hr' => ?_, hpair⟩⟩
        · rcases (hranges r').mp hr' with hr' | rfl
          · exact hclear' r₁ hr₁ r' hr'
          · exact hpairr r₁ hr₁

/-- **Faithful insertions.** From the empty set, `insert` does what its result says exactly for
sequences of disjoint ranges. -/
theorem insertsFaithful_iff (inserted : List (Range K D))
    (hle : ∀ r ∈ inserted, r.start ≤ r.stop) :
    (.empty : RangeSet K D).InsertsFaithful inserted ↔
      inserted.Pairwise fun r r' => r.stop < r'.start ∨ r'.stop < r.start := by
  have hd : (.empty : RangeSet K D).Disjoint := fun r hr => by cases hr
  rw [RangeSet.insertsFaithful_iff_clear hd hle]
  exact and_iff_right fun r _ r' hr' => by cases hr'

theorem insertsFaithful_iff_touching :
    (.empty : RangeSet Nat Nat).InsertsFaithful [⟨0, 4, 1⟩, ⟨5, 9, 2⟩] :=
  (insertsFaithful_iff [⟨0, 4, 1⟩, ⟨5, 9, 2⟩] (by decide)).mpr (by decide)

/-- The second of two overlapping ranges is stored all the same. -/
theorem insertsFaithful_fails_overlap :
    ¬ (.empty : RangeSet Nat Nat).InsertsFaithful [⟨0, 9, 1⟩, ⟨5, 14, 2⟩] := by
  have hd : (.empty : RangeSet Nat Nat).Disjoint := fun r hr => by cases hr
  rw [RangeSet.insertsFaithful_iff_clear hd (by decide)]
  decide

end DroidPerf
