import DroidPerf.Lib.SortedMap
import DroidPerf.Machine

/-!
# DroidPerf.Range

Sets of ranges with data (`range.h`).

A `RangeSet` is a map from the start of a range to the range. The constructor of `Range`
asserts that the start is not after the end, so every stored range is proper, and it is stored
under its own start: both are carried by the structure.

The map is sorted by start, so a lookup takes the last range that starts at or before the key
and looks if it reaches that far. This is right as long as ranges share no keys (`Disjoint`),
which `insert` does not check; the lemmas at the end say what the operations do on disjoint
ranges.
-/

namespace DroidPerf

/-- `Range<T_KEY, T_DATA>`; `stop` is the last key inside. -/
structure Range (K D : Type) where
  start : K
  stop : K
  data : D
  deriving DecidableEq, Repr

/-- `RangeSet<T_KEY, T_DATA>`. -/
structure RangeSet (K D : Type) [LinearOrder K] where
  startMap : SortedMap K (Range K D)
  proper : ∀ e ∈ startMap.entries, e.1 = e.2.start ∧ e.2.start ≤ e.2.stop

namespace RangeSet

variable {K D : Type} [LinearOrder K]

/-- The set without ranges. -/
def empty : RangeSet K D := ⟨.empty, by simp [SortedMap.empty]⟩

/-- The stored ranges, in increasing order. -/
def ranges (rs : RangeSet K D) : List (Range K D) := rs.startMap.entries.map Prod.snd

/-- `RangeSet::insert`: nothing is stored when the start is taken, and the result is
true all the same. -/
def insert (rs : RangeSet K D) (start stop : K) (data : D) : Except Fault (Bool × RangeSet K D) :=
  if h : start ≤ stop then
    .ok (true, ⟨rs.startMap.emplace start ⟨start, stop, data⟩, by
      intro e he
      rcases SortedMap.mem_emplace.mp he with he | ⟨rfl, -⟩
      · exact rs.proper e he
      · exact ⟨rfl, h⟩⟩)
  else .error .assertion

/-- `RangeSet::getRange`: the range before the `upper_bound`, if it reaches the key. -/
def getRange (rs : RangeSet K D) (probeKey : K) : Option (Range K D) :=
  match rs.startMap.floor? probeKey with
  | none => none
  | some e => if e.2.stop < probeKey then none else some e.2

/-- `RangeSet::getData`. -/
def getData (rs : RangeSet K D) (probeKey : K) : Option D := (rs.getRange probeKey).map Range.data

/-- `RangeSet::remove` by start. The range is found by a lookup of the start, so one that
covers the start from further left would be found instead; its start is compared for that
reason. -/
def remove (rs : RangeSet K D) (start : K) : Bool × RangeSet K D :=
  match rs.getRange start with
  | none => (false, rs)
  | some probeRange =>
    if probeRange.start = start then
      (true, ⟨rs.startMap.erase start, fun e he => rs.proper e (SortedMap.mem_erase.mp he).1⟩)
    else (false, rs)

/-- `RangeSet::isEmpty`. -/
def isEmpty (rs : RangeSet K D) : Bool := rs.startMap.entries.isEmpty

/-- `RangeSet::getRangesInside`: the ranges from the `lower_bound` on, up to the first one
that ends too late. -/
def getRangesInside (rs : RangeSet K D) (start stop : K) : Except Fault (List (Range K D)) := do
  assert (start ≤ stop)
  return ((rs.startMap.lowerBound start).map Prod.snd).takeWhile fun r => r.stop ≤ stop

/-- `RangeSet::remove` by start and end: it takes out a range only if it is the only one inside
these bounds and has them as its own. -/
def removeRange (rs : RangeSet K D) (start stop : K) : Except Fault (Bool × RangeSet K D) := do
  match ← rs.getRangesInside start stop with
  | [range] =>
    if range.start = start ∧ range.stop = stop then
      return (true, ⟨rs.startMap.erase range.start, fun e he =>
        rs.proper e (SortedMap.mem_erase.mp he).1⟩)
    else return (false, rs)
  | _ => return (false, rs)

/-! ### Disjoint ranges

For ranges sorted by their starts, sharing no keys means that they are sorted by their ends as
well. -/

/-- No two stored ranges share a key. -/
def Disjoint (rs : RangeSet K D) : Prop :=
  ∀ r ∈ rs.ranges, ∀ r' ∈ rs.ranges, r.start < r'.start → r.stop < r'.start

section Lemmas

variable {rs : RangeSet K D} {r : Range K D} {k : K}

/-- A range is stored under its start. -/
theorem mem_entries (h : r ∈ rs.ranges) : (r.start, r) ∈ rs.startMap.entries := by
  obtain ⟨e, he, rfl⟩ := List.mem_map.mp h
  rw [← (rs.proper e he).1]
  exact he

/-- A stored range is proper. -/
theorem start_le_stop (h : r ∈ rs.ranges) : r.start ≤ r.stop := (rs.proper _ (mem_entries h)).2

/-- What a lookup finds is stored and contains the key. -/
theorem mem_of_getRange (h : rs.getRange k = some r) :
    r ∈ rs.ranges ∧ r.start ≤ k ∧ k ≤ r.stop := by
  unfold getRange at h
  split at h
  · cases h
  · rename_i e hfloor
    obtain ⟨he, hek, -⟩ := SortedMap.floor?_eq_some.mp hfloor
    split at h
    · cases h
    · rename_i hstop
      cases h
      exact ⟨List.mem_map_of_mem he, (rs.proper e he).1 ▸ hek, not_lt.mp hstop⟩

/-- Among disjoint ranges a lookup finds the one that contains the key. -/
theorem getRange_eq_some (hd : rs.Disjoint) :
    rs.getRange k = some r ↔ r ∈ rs.ranges ∧ r.start ≤ k ∧ k ≤ r.stop := by
  constructor
  · exact mem_of_getRange
  · intro hcontains
    obtain ⟨hr, hstart, hstop⟩ := hcontains
    have hfloor : rs.startMap.floor? k = some (r.start, r) := by
      refine SortedMap.floor?_eq_some.mpr ⟨mem_entries hr, hstart, fun e he hek => ?_⟩
      -- a range that starts between would begin inside this one
      by_contra hlt
      have hkey := (rs.proper e he).1
      have hbefore := hd r hr e.2 (List.mem_map_of_mem he) (hkey ▸ not_le.mp hlt)
      exact absurd (hbefore.trans_le (hkey ▸ hek)) (not_lt.mpr hstop)
    unfold getRange
    rw [hfloor]
    exact if_neg (not_lt.mpr hstop)

/-- Stored ranges with one start are one range. -/
theorem start_inj {r' : Range K D} (h : r ∈ rs.ranges) (h' : r' ∈ rs.ranges)
    (heq : r.start = r'.start) : r = r' :=
  congrArg Prod.snd (SortedMap.eq_of_fst_eq (mem_entries h) (mem_entries h') heq)

/-- A proper range is stored unless its start is taken. -/
theorem insert_of_le (rs : RangeSet K D) {start stop : K} (h : start ≤ stop) (data : D) :
    ∃ rs', rs.insert start stop data = .ok (true, rs') ∧ ∀ r, r ∈ rs'.ranges ↔
      r ∈ rs.ranges ∨ r = ⟨start, stop, data⟩ ∧ ∀ r' ∈ rs.ranges, r'.start ≠ start := by
  refine ⟨_, dif_pos h, fun r => ?_⟩
  have hkeys : (∀ e ∈ rs.startMap.entries, e.1 ≠ start) ↔ ∀ r' ∈ rs.ranges, r'.start ≠ start := by
    constructor
    · intro hk r' hr'
      exact hk _ (mem_entries hr')
    · intro hk e he
      rw [(rs.proper e he).1]
      exact hk e.2 (List.mem_map_of_mem he)
  simp only [ranges, List.mem_map, SortedMap.mem_emplace, hkeys]
  constructor
  · intro hmem
    obtain ⟨e, he | ⟨rfl, hnew⟩, rfl⟩ := hmem
    · exact .inl ⟨e, he, rfl⟩
    · exact .inr ⟨rfl, hnew⟩
  · intro hmem
    rcases hmem with ⟨e, he, rfl⟩ | ⟨rfl, hnew⟩
    · exact ⟨e, .inl he, rfl⟩
    · exact ⟨_, .inr ⟨rfl, hnew⟩, rfl⟩

section Clear

variable {start stop : K} {data : D}

/-- A range that touches no stored one has a start of its own. -/
theorem start_ne_of_clear (hle : start ≤ stop)
    (hclear : ∀ r ∈ rs.ranges, r.stop < start ∨ stop < r.start) (hr : r ∈ rs.ranges) :
    r.start ≠ start := by
  intro heq
  rcases hclear r hr with hbefore | hafter
  · exact absurd (heq ▸ start_le_stop hr) (not_le.mpr hbefore)
  · exact absurd hle (not_le.mpr (heq ▸ hafter))

/-- A range that is clear of the stored ones leaves the set disjoint. -/
theorem Disjoint.add {rs' : RangeSet K D} (hd : rs.Disjoint) (hle : start ≤ stop)
    (hclear : ∀ r ∈ rs.ranges, r.stop < start ∨ stop < r.start)
    (hranges : ∀ r, r ∈ rs'.ranges ↔ r ∈ rs.ranges ∨ r = ⟨start, stop, data⟩) :
    rs'.Disjoint := by
  intro r hr r' hr' hlt
  rcases (hranges r).mp hr with hr | rfl
  · rcases (hranges r').mp hr' with hr' | rfl
    · exact hd r hr r' hr' hlt
    · rcases hclear r hr with hbefore | hafter
      · exact hbefore
      · exact absurd (hlt.trans_le hle) (not_lt.mpr hafter.le)
  · rcases (hranges r').mp hr' with hr' | rfl
    · rcases hclear r' hr' with hbefore | hafter
      · exact absurd (hlt.trans_le (start_le_stop hr')) (not_lt.mpr hbefore.le)
      · exact hafter
    · exact absurd hlt (lt_irrefl _)

/-- A proper range that touches no stored one is stored, and the set stays disjoint. -/
theorem insert_of_clear (hd : rs.Disjoint) (hle : start ≤ stop)
    (hclear : ∀ r ∈ rs.ranges, r.stop < start ∨ stop < r.start) (data : D) :
    ∃ rs', rs.insert start stop data = .ok (true, rs') ∧
      (∀ r, r ∈ rs'.ranges ↔ r ∈ rs.ranges ∨ r = ⟨start, stop, data⟩) ∧ rs'.Disjoint := by
  obtain ⟨rs', hins, hranges⟩ := rs.insert_of_le hle data
  have hadded : ∀ r, r ∈ rs'.ranges ↔ r ∈ rs.ranges ∨ r = ⟨start, stop, data⟩ := by
    intro r
    rw [hranges]
    exact or_congr_right (and_iff_left fun _ => start_ne_of_clear hle hclear)
  exact ⟨rs', hins, hadded, hd.add hle hclear hadded⟩

/-- The new range answers for its keys, the others as before. -/
theorem Disjoint.getData_add {rs' : RangeSet K D} (hd : rs.Disjoint) (hle : start ≤ stop)
    (hclear : ∀ r ∈ rs.ranges, r.stop < start ∨ stop < r.start)
    (hranges : ∀ r, r ∈ rs'.ranges ↔ r ∈ rs.ranges ∨ r = ⟨start, stop, data⟩) (k : K) :
    rs'.getData k = if start ≤ k ∧ k ≤ stop then some data else rs.getData k := by
  have hd' := hd.add hle hclear hranges
  unfold getData
  split
  · rename_i hin
    rw [(getRange_eq_some hd').mpr ⟨(hranges ⟨start, stop, data⟩).mpr (.inr rfl), hin⟩]
    rfl
  · rename_i hout
    refine congrArg (Option.map Range.data) (Option.ext fun r => ?_)
    rw [getRange_eq_some hd', getRange_eq_some hd, hranges]
    constructor
    · rintro ⟨hr | rfl, hk⟩
      · exact ⟨hr, hk⟩
      · exact absurd hk hout
    · rintro ⟨hr, hk⟩
      exact ⟨.inl hr, hk⟩

/-- A range behind all others. -/
theorem insert_after (hd : rs.Disjoint) (hle : start ≤ stop)
    (hbefore : ∀ r ∈ rs.ranges, r.stop < start) (data : D) :
    ∃ rs', rs.insert start stop data = .ok (true, rs') ∧ rs'.Disjoint ∧
      (∀ r, r ∈ rs'.ranges ↔ r ∈ rs.ranges ∨ r = ⟨start, stop, data⟩) ∧
      ∀ k, rs'.getData k = if start ≤ k ∧ k ≤ stop then some data else rs.getData k := by
  have hclear : ∀ r ∈ rs.ranges, r.stop < start ∨ stop < r.start := fun r hr => .inl (hbefore r hr)
  obtain ⟨rs', hins, hranges, hd'⟩ := insert_of_clear hd hle hclear data
  exact ⟨rs', hins, hd', hranges, hd.getData_add hle hclear hranges⟩

end Clear

/-- Behind all ranges there is no data. -/
theorem getData_eq_none (h : ∀ r ∈ rs.ranges, r.stop < k) : rs.getData k = none := by
  cases hget : rs.getRange k with
  | none => rw [getData, hget, Option.map_none]
  | some r =>
      obtain ⟨hr, -, hstop⟩ := mem_of_getRange hget
      exact absurd hstop (not_le.mpr (h r hr))

/-- An empty set has no data. -/
theorem getData_of_isEmpty (h : rs.isEmpty = true) (k : K) : rs.getData k = none := by
  refine getData_eq_none fun r hr => ?_
  rw [ranges, List.isEmpty_iff.mp h] at hr
  cases hr

/-- What is left when a range is erased by its start. -/
theorem mem_ranges_erase
    {h : ∀ e ∈ (rs.startMap.erase k).entries, e.1 = e.2.start ∧ e.2.start ≤ e.2.stop} :
    r ∈ (⟨rs.startMap.erase k, h⟩ : RangeSet K D).ranges ↔
      r ∈ rs.ranges ∧ r.start ≠ k := by
  constructor
  · intro hmem
    obtain ⟨e, he, rfl⟩ := List.mem_map.mp hmem
    obtain ⟨he, hne⟩ := SortedMap.mem_erase.mp he
    exact ⟨List.mem_map_of_mem he, (rs.proper e he).1 ▸ hne⟩
  · intro hmem
    exact List.mem_map.mpr ⟨_, SortedMap.mem_erase.mpr ⟨mem_entries hmem.1, hmem.2⟩, rfl⟩

/-- Removing a stored range by its start removes it and nothing else. -/
theorem remove_of_mem (hd : rs.Disjoint) (hr : r ∈ rs.ranges) :
    ∃ rs', rs.remove r.start = (true, rs') ∧
      ∀ r', r' ∈ rs'.ranges ↔ r' ∈ rs.ranges ∧ r'.start ≠ r.start := by
  have hget : rs.getRange r.start = some r :=
    (getRange_eq_some hd).mpr ⟨hr, le_refl _, start_le_stop hr⟩
  refine ⟨⟨rs.startMap.erase r.start, fun e he => rs.proper e (SortedMap.mem_erase.mp he).1⟩, ?_,
    fun r' => mem_ranges_erase⟩
  simp only [remove, hget, if_true]

end Lemmas

end RangeSet

end DroidPerf
