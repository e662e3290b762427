import DroidPerf.MethodFileSound
import DroidPerf.TablesSound

/-!
# DroidPerf.PrintedSound

What is left of a 64-bit number that is printed with `%d`.

The agent prints the ids of methods and the memory in use as numbers of type `int`. The
converter reads back what was printed, so two methods are one to it when their ids agree in the
lower half, and the metric is the memory in use up to 2^31 only (`printed_faithful_iff`).

Both halves go from what is printed through what the converter reads: a printed number is read
as itself, so the question is what `toInt32` keeps of the number (`toInt32_eq_iff`,
`toInt32_of_lt`).
-/

namespace DroidPerf

open Text

open DataBuilder (MetricMsg StringTable)

/-! ### Method ids

An id is printed in three places and read back in two; in each of them it is the same number of
32 bits. -/

/-- `int(temp[0])` for a line of the method file. -/
def lineId (line : List Char) : Option Int := do
  let id ← (line.splitOn ' ').head?
  readInt id

/-- `int(frame[0])` for the first frame in a text. -/
def frameId (path : List Char) : Option Int := do
  let text ← (path.splitOn ' ').head?
  let frame ← readFrame text
  readInt frame.1

/-- The ids of two methods are printed differently: in the lines of `MethodEntry`, in the
frames of `ObjectAllocCallback` and `constructContext`; and the line of the one method
leaves the other's entry in `method_map` as it is. -/
structure IdsApart (a b : Nat) : Prop where
  line : ∀ name name' className className',
    lineId (Fragment.methodLine a name className).print ≠
      lineId (Fragment.methodLine b name' className').print
  frame : ∀ scope scope', Numeric scope → Numeric scope' →
    frameId (Fragment.frame scope a).print ≠ frameId (Fragment.frame scope' b).print
  methodMap : ∀ name name' className className' methodMap methodMap₁ methodMap₂ key,
    addMethod methodMap (Fragment.methodLine a name className).print = some methodMap₁ →
    addMethod methodMap₁ (Fragment.methodLine b name' className').print = some methodMap₂ →
    lineId (Fragment.methodLine a name className).print = some key →
    methodMap₂ key = methodMap₁ key

/-- Numbers are printed alike if they agree in their lower halves. -/
theorem toInt32_eq_iff {a b : Nat} : toInt32 a = toInt32 b ↔ a % 2 ^ 32 = b % 2 ^ 32 := by
  unfold toInt32
  split <;> split <;> omega

/-- The number that was printed is read. -/
theorem readInt_toInt32 (a : Nat) : readInt (decimal (toInt32 a)) = some (toInt32 a) := by
  rw [← List.append_nil (decimal (toInt32 a))]
  exact readInt_decimal _ (by decide)

/-- The id that is read from a line of `MethodEntry`. -/
theorem lineId_methodLine (a : Nat) (name className : List Char) :
    lineId (Fragment.methodLine a name className).print = some (toInt32 a) := by
  have hid : ' ' ∉ decimal (toInt32 a) := (numeric_decimal _).notMem (by decide) (by decide)
  unfold lineId Fragment.print
  rw [List.splitOn_append_cons_self_of_not_mem hid]
  exact readInt_toInt32 a

/-- The id that is read from a frame. -/
theorem frameId_frame {scope : List Char} (hscope : Numeric scope) (a : Nat) :
    frameId (Fragment.frame scope a).print = some (toInt32 a) := by
  have hblank : ' ' ∉ frameText (a, scope) :=
    notMem_frameText hscope (by decide) (by decide) (by decide)
  have hprint : (Fragment.frame scope a).print = frameText (a, scope) ++ ' ' :: [] :=
    print_framePiece (a, scope)
  unfold frameId
  rw [hprint, List.splitOn_append_cons_self_of_not_mem hblank]
  show (readFrame (frameText (a, scope)) >>= fun frame => readInt frame.1) = _
  rw [readFrame_frameText hscope]
  exact readInt_toInt32 a

/-- Ids are told apart by their lower halves. -/
theorem idsApart_iff {a b : Nat} : IdsApart a b ↔ a % 2 ^ 32 ≠ b % 2 ^ 32 := by
  rw [ne_eq, ← toInt32_eq_iff]
  constructor
  · intro h heq
    have hline := h.line [] [] [] []
    rw [lineId_methodLine, lineId_methodLine, heq] at hline
    exact hline rfl
  · intro hne
    refine ⟨fun name name' className className' => ?_, fun scope scope' hs hs' => ?_, ?_⟩
    · rw [lineId_methodLine, lineId_methodLine]
      exact fun heq => hne (Option.some.inj heq)
    · rw [frameId_frame hs, frameId_frame hs']
      exact fun heq => hne (Option.some.inj heq)
    · -- a line with another id leaves the entry alone
      intro name name' className className' methodMap methodMap₁ methodMap₂ key _ hadd hkey
      rw [lineId_methodLine] at hkey
      obtain ⟨info, hinfo⟩ := addMethod_line methodMap₁ b name' className'
      rw [hinfo] at hadd
      cases hadd
      rw [← Option.some.inj hkey, Function.update_of_ne hne]

/-! ### The metric

A negative metric is refused by the builder, so nothing wrong is stored: the sample is lost. -/

/-- The memory in use is the metric of the sample in the profile: the line that
`constructContext` writes to a new stream is read as one trace, and its metric is stored. -/
def MetricKept (v : Nat) : Prop :=
  ∀ (callpathVec : List (Nat × List Char)) (o o' : Output) (strings : StringTable),
    callpathVec ≠ [] → NumericScopes callpathVec → o.Ready → o.written = [] →
    writeTrace callpathVec v o = .ok o' →
      ∃ trace metric strings', readTraces o'.text = some [trace] ∧
        DataBuilder.Builder.addMetrics strings [] [⟨0, trace.m, []⟩] = some (metric, strings') ∧
        metric.map DataBuilder.Metric.uintValue = [(v : Int)]

/-- A metric is stored when it is of type `uint64`. -/
theorem addMetrics_uint_iff (strings : StringTable) {m : Int} {v : Nat} :
    (∃ metric strings', DataBuilder.Builder.addMetrics strings [] [⟨0, m, []⟩] =
        some (metric, strings') ∧ metric.map DataBuilder.Metric.uintValue = [(v : Int)]) ↔
      m = v ∧ v < 2 ^ 64 := by
  obtain ⟨strIndex, strings₁, hstring⟩ := StringTable.exists_addString strings []
  have hadd : DataBuilder.Builder.addMetrics strings [] [⟨0, m, []⟩] =
      if DataBuilder.fitsUint64 m then some ([⟨0, m, strIndex⟩], strings₁) else none := by
    simp [DataBuilder.Builder.addMetrics, hstring, DataBuilder.fitsInt64]
  rw [hadd]
  constructor
  · rintro ⟨metric, strings', hmetric, huint⟩
    split at hmetric
    · rename_i hfits
      cases hmetric
      have heq : m = v := by simpa using huint
      rw [heq] at hfits
      simp only [DataBuilder.fitsUint64, decide_eq_true_iff] at hfits
      exact ⟨heq, by omega⟩
    · cases hmetric
  · rintro ⟨rfl, hlt⟩
    refine ⟨_, _, if_pos ?_, rfl⟩
    simp only [DataBuilder.fitsUint64, decide_eq_true_iff]
    omega

/-- The converter reads the printed number. -/
theorem readTraces_writeTrace {callpathVec : List (Nat × List Char)} {v : Nat} {o o' : Output}
    (hne : callpathVec ≠ []) (hscopes : NumericScopes callpathVec) (hready : o.Ready)
    (hwritten : o.written = []) (h : writeTrace callpathVec v o = .ok o') :
    readTraces o'.text = some [sampleTrace callpathVec v] := by
  rw [writeTrace_eq] at h
  obtain ⟨hpieces, -⟩ := Output.writeAll_ready hready h
  have hsamples : o'.written = samplePieces [(callpathVec, v)] := by
    rw [hpieces, hwritten, samplePieces, List.flatMap_singleton, List.nil_append]
  rw [Output.text, hsamples, readTraces_samplePieces (by simpa using hscopes)]
  simp [sampleTraces, hne]

/-- The metric is the memory in use below 2^31. -/
theorem metricKept_iff {v : Nat} : MetricKept v ↔ v < 2 ^ 31 := by
  constructor
  · -- one sample with one frame shows what is printed
    intro h
    have hscopes : NumericScopes [(16, ['0'])] := by
      intro frame hframe
      rw [List.mem_singleton.mp hframe]
      decide
    have hfit : ScopesFit [(16, ['0'])] := by
      intro frame hframe
      rw [List.mem_singleton.mp hframe]
      decide
    obtain ⟨o', ho'⟩ := Output.writeAll_fits (tracePieces_fit hfit v) (newOutput "trace" 7)
    rw [← writeTrace_eq] at ho'
    have hready : (newOutput "trace" 7).Ready := newOutput_ready (by decide) (by decide)
    have hwritten := newOutput_written "trace" 7
    obtain ⟨trace, metric, strings', hread, hkept⟩ :=
      h _ _ o' [] (List.cons_ne_nil _ _) hscopes hready hwritten ho'
    rw [readTraces_writeTrace (List.cons_ne_nil _ _) hscopes hready hwritten ho'] at hread
    obtain ⟨heq, -⟩ := (addMetrics_uint_iff []).mp ⟨metric, strings', hkept⟩
    rw [← (List.cons.inj (Option.some.inj hread)).1] at heq
    have hint : toInt32 v = v := heq
    unfold toInt32 at hint
    split at hint <;> omega
  · intro hlt callpathVec o o' strings hne hscopes hready hwritten h
    have hint : (sampleTrace callpathVec v).m = v := toInt32_of_lt hlt
    obtain ⟨metric, strings', hadd, huint⟩ :=
      (addMetrics_uint_iff strings).mpr ⟨hint, by omega⟩
    exact ⟨_, metric, strings', readTraces_writeTrace hne hscopes hready hwritten h, hadd, huint⟩

/-- **What is printed.** The printed ids of two methods differ exactly when the ids differ in
their lower halves, and the memory in use is the metric exactly when it is less than 2^31. -/
theorem printed_faithful_iff (a b v : Nat) :
    (IdsApart a b ↔ a % 2 ^ 32 ≠ b % 2 ^ 32) ∧ (MetricKept v ↔ v < 2 ^ 31) :=
  ⟨idsApart_iff, metricKept_iff⟩

/-- Two methods whose ids differ in their upper halves, and memory of 2^31 bytes. -/
theorem printed_faithful_fails :
    ¬ ((∀ a < 2 ^ 64, ∀ b < 2 ^ 64, a ≠ b → IdsApart a b) ∧ ∀ v < 2 ^ 64, MetricKept v) ∧
      ¬ IdsApart 0x7000000010 0x7100000010 ∧ ¬ MetricKept (2 ^ 31) := by
  have hids : ¬ IdsApart 0x7000000010 0x7100000010 := by
    rw [idsApart_iff]
    decide
  have hmetric : ¬ MetricKept (2 ^ 31) := by
    rw [metricKept_iff]
    decide
  exact ⟨fun h => hids (h.1 _ (by decide) _ (by decide) (by decide)), hids, hmetric⟩

end DroidPerf
