import DroidPerf.PerfInterface

/-!
# DroidPerf.PerfProgressSound

The drain loop ends, whatever bytes are in the ring (`drainLoop_progress`).

An iteration that goes on reads a header and then the fields of a sample or the rest of a
record. The length that is left after a header is computed in `size_t`: for a size below that
of the header itself it wraps around and the tail moves back, but never behind where the
iteration began (`perfSkipRecord_tail`). So every iteration moves the tail forward and keeps it
at or before the head (`Iterates.progress`), which bounds their number.

`Iterates` is an iteration that neither leaves the loop nor fails, built from the functions of
the body; `drainLoop_round` ties it to the loop as the source has it: a round either is such an
iteration, and the loop goes on from where it ended, or its result is final. Since the loop of
the model is given a number of rounds, that it ends is said as: more rounds than bytes are
enough.
-/

namespace DroidPerf

open Bytes

/-- The tail is not beyond the head, and the counters are far from wrapping around. -/
structure Ordered (m : PerfMmap) : Prop where
  tail_le : m.dataTail ≤ m.dataHead
  head_lt : m.dataHead < 2 ^ 63

/-- Between `m` and `m'` bytes were consumed: the head stays, and the tail is not moved back
nor beyond the head. -/
structure Consumed (m m' : PerfMmap) : Prop where
  head_eq : m'.dataHead = m.dataHead
  tail_le : m.dataTail ≤ m'.dataTail
  le_head : m'.dataTail ≤ m'.dataHead

/-! ### Reads and skips

Each function of the reader consumes bytes, whatever is in the ring. Skipping a record is the
only one that can move the tail back, and it is looked at together with the header before it. -/

section Counters

variable {m m' m'' : PerfMmap}

/-- Without a wrap-around between the counters, their difference is that of the numbers. -/
theorem Ordered.available (h : Ordered m) :
    sub64 m.dataHead m.dataTail = m.dataHead - m.dataTail := by
  have hle := h.tail_le
  have hlt := h.head_lt
  unfold sub64
  omega

theorem Consumed.refl (h : Ordered m) : Consumed m m := ⟨rfl, Nat.le_refl _, h.tail_le⟩

theorem Consumed.trans (h : Consumed m m') (h' : Consumed m' m'') : Consumed m m'' :=
  ⟨h'.head_eq.trans h.head_eq, h.tail_le.trans h'.tail_le, h'.le_head⟩

theorem Consumed.ordered (h : Consumed m m') (hm : Ordered m) : Ordered m' :=
  ⟨h.le_head, h.head_eq ▸ hm.head_lt⟩

/-- A read that succeeds moves the tail by what it reads. -/
theorem perfReadBufferNbytes_tail (hm : Ordered m) {mask n : Nat} {out : List UInt8}
    (h : perfReadBufferNbytes mask m n = (0, out, m')) :
    m'.dataHead = m.dataHead ∧ m'.dataTail = m.dataTail + n ∧ m'.dataTail ≤ m'.dataHead := by
  have hle := hm.tail_le
  have hlt := hm.head_lt
  have havail := hm.available
  unfold perfReadBufferNbytes at h
  simp only [havail] at h
  split at h
  · cases h
  · rename_i hn
    have hadd : add64 m.dataTail n = m.dataTail + n := by
      unfold add64
      omega
    rw [hadd] at h
    cases h
    exact ⟨rfl, rfl, by simp only; omega⟩

/-- A header takes eight bytes, and its size has sixteen bits. -/
theorem perfReadHeader_tail (hm : Ordered m) {mask : Nat} {ehdr : PerfEventHeader}
    (h : perfReadHeader mask m = some (ehdr, m')) :
    m'.dataHead = m.dataHead ∧ m'.dataTail = m.dataTail + 8 ∧ m'.dataTail ≤ m'.dataHead ∧
      ehdr.size < 2 ^ 16 := by
  unfold perfReadHeader at h
  rcases hread : perfReadBufferNbytes mask m sizeofHeader with ⟨ret, out, m₁⟩
  simp only [hread] at h
  split at h
  · rename_i hret
    subst hret
    cases h
    obtain ⟨hhead, htail, hle⟩ := perfReadBufferNbytes_tail hm hread
    have hsize := ofBytesLE_lt ((out.drop 6).take 2)
    have hlen : ((out.drop 6).take 2).length ≤ 2 := List.length_take_le _ _
    exact ⟨hhead, htail, hle, hsize.trans_le (Nat.pow_le_pow_right (by decide) hlen)⟩
  · cases h

/-- A field consumes its bytes. -/
theorem copySampleData_consumed (hm : Ordered m) {mask size value : Nat}
    (h : copySampleData mask m size = some (value, m')) : Consumed m m' := by
  unfold copySampleData at h
  rcases hread : perfReadBufferNbytes mask m size with ⟨ret, out, m₁⟩
  simp only [hread] at h
  split at h
  · rename_i hret
    subst hret
    cases h
    obtain ⟨hhead, htail, hle⟩ := perfReadBufferNbytes_tail hm hread
    exact ⟨hhead, by omega, hle⟩
  · cases h

/-- A part of a sample that is read when its bit is set. -/
def readIf {α : Type} (bit : Nat) (read : PerfMmap → Option (α × PerfMmap))
    (store : PerfSampleData → α → PerfSampleData) (q : PerfSampleData × PerfMmap) :
    Option (PerfSampleData × PerfMmap) :=
  if bit ≠ 0 then (read q.2).map fun p => (store q.1 p.1, p.2) else some q

/-- The process and the thread id, one after the other. -/
def copyIds (mask : Nat) (m : PerfMmap) : Option ((Nat × Nat) × PerfMmap) :=
  (copySampleData mask m 4).bind fun p =>
    (copySampleData mask p.2 4).map fun q => ((p.1, q.1), q.2)

/-- A sample is read part by part. -/
theorem perfReadRecordSample_eq (mask : Nat) (m : PerfMmap) (sampleType : Nat)
    (d : PerfSampleData) : perfReadRecordSample mask m sampleType d =
      (((readIf (sampleType &&& perfSampleIp) (copySampleData mask · 8)
            (fun d ip => { d with ip := ip }) (d, m)).bind
          (readIf (sampleType &&& perfSampleTid) (copyIds mask)
            fun d ids => { d with pid := ids.1, tid := ids.2 })).bind
        (readIf (sampleType &&& perfSampleAddr) (copySampleData mask · 8)
          fun d addr => { d with addr := addr })).bind
      (readIf (sampleType &&& perfSampleCpu) (copySampleData mask · 4)
        fun d cpu => { d with cpu := cpu }) := by
  have hmap : ∀ {α β : Type} (x : Option α) (f : α → β), x.map f = x.bind fun a => some (f a) :=
    fun x f => by cases x <;> rfl
  unfold perfReadRecordSample readIf copyIds
  by_cases hip : sampleType &&& perfSampleIp = 0 <;>
    by_cases htid : sampleType &&& perfSampleTid = 0 <;>
    by_cases haddr : sampleType &&& perfSampleAddr = 0 <;>
    by_cases hcpu : sampleType &&& perfSampleCpu = 0 <;>
    simp [hip, htid, haddr, hcpu, hmap, Option.bind_assoc]

theorem copyIds_consumed (hm : Ordered m) {mask : Nat} {ids : Nat × Nat}
    (h : copyIds mask m = some (ids, m')) : Consumed m m' := by
  obtain ⟨⟨pid, m₁⟩, hpid, h⟩ := Option.bind_eq_some_iff.mp h
  obtain ⟨⟨tid, m₂⟩, htid, h⟩ := Option.map_eq_some_iff.mp h
  cases h
  have hc := copySampleData_consumed hm hpid
  exact hc.trans (copySampleData_consumed (hc.ordered hm) htid)

theorem readIf_consumed {α : Type} {bit : Nat} {read : PerfMmap → Option (α × PerfMmap)}
    {store : PerfSampleData → α → PerfSampleData} {q q' : PerfSampleData × PerfMmap}
    (hread : ∀ m m' v, Ordered m → read m = some (v, m') → Consumed m m') (hq : Ordered q.2)
    (h : readIf bit read store q = some q') : Consumed q.2 q'.2 := by
  unfold readIf at h
  split at h
  · obtain ⟨⟨v, m'⟩, hv, rfl⟩ := Option.map_eq_some_iff.mp h
    exact hread _ _ _ hq hv
  · cases h
    exact .refl hq

/-- A sample consumes the bytes of its fields. -/
theorem perfReadRecordSample_consumed (hm : Ordered m) {mask sampleType : Nat}
    {d d' : PerfSampleData} (h : perfReadRecordSample mask m sampleType d = some (d', m')) :
    Consumed m m' := by
  rw [perfReadRecordSample_eq] at h
  obtain ⟨q₃, h, hcpu⟩ := Option.bind_eq_some_iff.mp h
  obtain ⟨q₂, h, haddr⟩ := Option.bind_eq_some_iff.mp h
  obtain ⟨q₁, hip, hids⟩ := Option.bind_eq_some_iff.mp h
  have hfield : ∀ size m m' v, Ordered m → copySampleData mask m size = some (v, m') →
      Consumed m m' := fun _ _ _ _ hm h => copySampleData_consumed hm h
  have hc₁ := readIf_consumed (hfield 8) hm hip
  have hc₂ := hc₁.trans (readIf_consumed (fun _ _ _ hm h => copyIds_consumed hm h)
    (hc₁.ordered hm) hids)
  have hc₃ := hc₂.trans (readIf_consumed (hfield 8) (hc₂.ordered hm) haddr)
  exact hc₃.trans (readIf_consumed (hfield 4) (hc₃.ordered hm) hcpu)

/-- A skip of any length that a record can have stops at the head at the latest. -/
theorem perfSkipBufferNbytes_consumed (hm : Ordered m) {n : Nat} (hn : n < 2 ^ 63) :
    Consumed m (perfSkipBufferNbytes m n) := by
  have hle := hm.tail_le
  have hlt := hm.head_lt
  unfold perfSkipBufferNbytes add64
  rw [hm.available]
  split
  · exact ⟨rfl, by simp only; omega, by simp only; omega⟩
  · exact ⟨rfl, by simp only; omega, by simp only; omega⟩

/-- Skipping all stops at the head. -/
theorem perfSkipAll_consumed (hm : Ordered m) : Consumed m (perfSkipAll m) := by
  unfold perfSkipAll
  dsimp only
  split
  · refine perfSkipBufferNbytes_consumed hm ?_
    have hrange : perfNumOfRemainingData m < 2 ^ 31 := by
      unfold perfNumOfRemainingData toInt32
      split <;> omega
    omega
  · exact .refl hm

/-- After the header, skipping the rest of a record of any size but 0 ends behind the place
where the header began: an undersized record moves the tail back into its own header. -/
theorem perfSkipRecord_tail {m₁ : PerfMmap} {ehdr : PerfEventHeader} (hm : Ordered m)
    (hhead : m₁.dataHead = m.dataHead) (htail : m₁.dataTail = m.dataTail + 8)
    (hle : m₁.dataTail ≤ m₁.dataHead) (hpos : ehdr.size ≠ 0) (hsize : ehdr.size < 2 ^ 16) :
    (perfSkipRecord m₁ ehdr).dataHead = m.dataHead ∧
      m.dataTail < (perfSkipRecord m₁ ehdr).dataTail ∧
      (perfSkipRecord m₁ ehdr).dataTail ≤ m.dataHead := by
  have hlt := hm.head_lt
  have hm₁ : Ordered m₁ := ⟨hle, hhead ▸ hlt⟩
  rcases Nat.lt_or_ge ehdr.size 8 with hsmall | hlarge
  · -- the length wraps around, and adding it wraps back
    have hback : add64 m₁.dataTail (sub64 ehdr.size sizeofHeader) = m.dataTail + ehdr.size := by
      unfold add64 sub64 sizeofHeader
      omega
    unfold perfSkipRecord perfSkipBufferNbytes
    rw [if_neg (by omega)]
    exact ⟨hhead, by simp only; omega, by simp only; omega⟩
  · have hrest : sub64 ehdr.size sizeofHeader = ehdr.size - 8 := by
      unfold sub64 sizeofHeader
      omega
    obtain ⟨hhead', htail', hle'⟩ := perfSkipBufferNbytes_consumed hm₁ (n := ehdr.size - 8) (by omega)
    rw [perfSkipRecord, hrest]
    exact ⟨hhead'.trans hhead, by omega, by omega⟩

end Counters

/-! ### Iterations

The iterations of a run are counted, and each of them consumes a byte at least. -/

section Loop

variable {σ : Type} {mask sampleType : Nat} {cb : PerfSampleData → σ → Except Fault σ}

/-- An iteration of the drain loop that neither leaves the loop nor fails. -/
def Iterates (mask sampleType : Nat) (cb : PerfSampleData → σ → Except Fault σ)
    (q q' : PerfMmap × σ) : Prop :=
  sizeofHeader ≤ perfNumOfRemainingData q.1 ∧ ∃ ehdr m, perfReadHeader mask q.1 = some (ehdr, m) ∧
    drainRecord mask sampleType cb ehdr m q.2 = .ok q'

/-- So many iterations, one after another. -/
inductive Iterations (mask sampleType : Nat) (cb : PerfSampleData → σ → Except Fault σ) :
    Nat → PerfMmap × σ → PerfMmap × σ → Prop
  | zero (q : PerfMmap × σ) : Iterations mask sampleType cb 0 q q
  | succ {n : Nat} {q q₁ q' : PerfMmap × σ} : Iterates mask sampleType cb q q₁ →
      Iterations mask sampleType cb n q₁ q' → Iterations mask sampleType cb (n + 1) q q'

/-- An iteration moves the tail forward and not beyond the head. -/
theorem Iterates.progress {q q' : PerfMmap × σ} (hm : Ordered q.1)
    (h : Iterates mask sampleType cb q q') :
    q.1.dataTail < q'.1.dataTail ∧ Consumed q.1 q'.1 := by
  obtain ⟨-, ehdr, m₁, hread, hrecord⟩ := h
  obtain ⟨hhead, htail, hle, hsize⟩ := perfReadHeader_tail hm hread
  have hc₁ : Consumed q.1 m₁ := ⟨hhead, by omega, hle⟩
  have hm₁ := hc₁.ordered hm
  -- behind the header nothing is given back, but for an undersized record
  have hforward : ∀ m', Consumed m₁ m' → q.1.dataTail < m'.dataTail ∧ Consumed q.1 m' := by
    intro m' hc
    have hmore := hc.tail_le
    exact ⟨by omega, hc₁.trans hc⟩
  unfold drainRecord at hrecord
  split at hrecord
  · split at hrecord
    · cases hrecord
    · rename_i d m₂ hsample
      obtain ⟨s', -, hq'⟩ := map_eq_ok.mp hrecord
      subst hq'
      exact hforward m₂ (perfReadRecordSample_consumed hm₁ hsample)
  · split at hrecord
    · cases hrecord
      exact hforward _ (perfSkipAll_consumed hm₁)
    · rename_i hpos
      cases hrecord
      obtain ⟨hhead', hlt, hle'⟩ := perfSkipRecord_tail hm hhead htail hle hpos hsize
      exact ⟨hlt, hhead', hlt.le, hhead'.symm ▸ hle'⟩

/-- Every iteration consumes at least one byte. -/
theorem Iterations.consumed {n : Nat} {q q' : PerfMmap × σ} (hm : Ordered q.1)
    (h : Iterations mask sampleType cb n q q') :
    q.1.dataTail + n ≤ q'.1.dataTail ∧ Consumed q.1 q'.1 := by
  induction h with
  | zero q => exact ⟨Nat.le_refl _, .refl hm⟩
  | succ hiter _ ih =>
      obtain ⟨hlt, hc⟩ := hiter.progress hm
      obtain ⟨hle, hc'⟩ := ih (hc.ordered hm)
      exact ⟨by omega, hc.trans hc'⟩

/-- Only the callback can run out of fuel in the body of the loop. -/
theorem drainRecord_outOfFuel {ehdr : PerfEventHeader} {m : PerfMmap} {s : σ}
    (h : drainRecord mask sampleType cb ehdr m s = .error .outOfFuel) :
    ∃ d, cb d s = .error .outOfFuel := by
  unfold drainRecord at h
  split at h
  · split at h
    · cases h
    · rename_i d m₁ _
      cases hcb : cb d s with
      | ok s' =>
          rw [hcb] at h
          cases h
      | error e =>
          rw [hcb] at h
          cases h
          exact ⟨d, hcb⟩
  · split at h <;> cases h

/-- A round of the loop either is an iteration after which the loop goes on, or its result
is final. -/
theorem drainLoop_round (m : PerfMmap) (s : σ) :
    (∃ q', Iterates mask sampleType cb (m, s) q' ∧ ∀ fuel,
      drainLoop mask sampleType cb (fuel + 1) m s = drainLoop mask sampleType cb fuel q'.1 q'.2) ∨
    ∃ result, (∀ fuel, drainLoop mask sampleType cb (fuel + 1) m s = result) ∧
      (result = .error .outOfFuel → ∃ d, cb d s = .error .outOfFuel) := by
  by_cases hpos : 0 < perfNumOfRemainingData m
  · by_cases hshort : perfNumOfRemainingData m < sizeofHeader
    · refine .inr ⟨.ok (perfSkipAll m, s), fun fuel => ?_, nofun⟩
      rw [drainLoop, if_pos hpos, if_pos hshort]
    · cases hread : perfReadHeader mask m with
      | none =>
          refine .inr ⟨.error .assertion, fun fuel => ?_, nofun⟩
          rw [drainLoop, if_pos hpos, if_neg hshort, hread]
      | some q =>
          obtain ⟨ehdr, m₁⟩ := q
          cases hrecord : drainRecord mask sampleType cb ehdr m₁ s with
          | error e =>
              refine .inr ⟨.error e, fun fuel => ?_, fun he => ?_⟩
              · rw [drainLoop, if_pos hpos, if_neg hshort, hread]
                simp only [hrecord]
                rfl
              · exact drainRecord_outOfFuel (hrecord.trans he)
          | ok q' =>
              refine .inl ⟨q', ⟨not_lt.mp hshort, ehdr, m₁, hread, hrecord⟩, fun fuel => ?_⟩
              rw [drainLoop, if_pos hpos, if_neg hshort, hread]
              simp only [hrecord]
              rfl
  · refine .inr ⟨.ok (m, s), fun fuel => ?_, nofun⟩
    rw [drainLoop, if_neg hpos]

/-- After an iteration the loop goes on from where it ended. -/
theorem Iterates.drainLoop_eq {q q' : PerfMmap × σ} (h : Iterates mask sampleType cb q q')
    (fuel : Nat) :
    drainLoop mask sampleType cb (fuel + 1) q.1 q.2 = drainLoop mask sampleType cb fuel q'.1 q'.2 := by
  obtain ⟨hsize, ehdr, m, hread, hrecord⟩ := h
  have hheader : (0 : Int) < sizeofHeader := by decide
  rw [drainLoop, if_pos (lt_of_lt_of_le hheader hsize), if_neg (not_lt.mpr hsize), hread]
  simp only [hrecord]
  rfl

/-- After so many iterations the loop goes on from where they ended. -/
theorem Iterations.drainLoop_eq {n : Nat} {q q' : PerfMmap × σ}
    (h : Iterations mask sampleType cb n q q') (fuel : Nat) :
    drainLoop mask sampleType cb (fuel + n) q.1 q.2 =
      drainLoop mask sampleType cb fuel q'.1 q'.2 := by
  induction h with
  | zero q => rfl
  | succ hiter _ ih => exact (hiter.drainLoop_eq _).trans ih

/-- Enough fuel for every byte is enough for the loop. -/
theorem drainLoop_ne_outOfFuel (hcb : ∀ d s, cb d s ≠ .error .outOfFuel) {fuel : Nat}
    {m : PerfMmap} {s : σ} (hm : Ordered m) (hfuel : m.dataHead - m.dataTail < fuel) :
    drainLoop mask sampleType cb fuel m s ≠ .error .outOfFuel := by
  induction fuel generalizing m s with
  | zero => omega
  | succ fuel ih =>
      rcases drainLoop_round m s with ⟨q', hiter, hloop⟩ | ⟨result, hloop, hresult⟩
      · obtain ⟨hlt, hc⟩ := hiter.progress hm
        have hle := hc.le_head
        have hhead := hc.head_eq
        rw [hloop]
        exact ih (hc.ordered hm) (by simp only at hlt hhead; omega)
      · rw [hloop]
        intro hout
        obtain ⟨d, hd⟩ := hresult hout
        exact hcb d s hd

end Loop

/-- **The drain loop ends.** For every content of the ring and every callback, with the head
fixed and the tail not beyond it: the loop is its iterations, up to the round in which it
leaves; in every iteration of the drain loop that goes on, the tail moves forward and stays at
or before the head; so there are at most as many iterations as there are bytes, and the loop
ends. -/
theorem drainLoop_progress {σ : Type} (mask sampleType : Nat)
    (cb : PerfSampleData → σ → Except Fault σ) (hcb : ∀ d s, cb d s ≠ .error .outOfFuel)
    (m : PerfMmap) (s : σ) (hle : m.dataTail ≤ m.dataHead) (hlt : m.dataHead < 2 ^ 63) :
    (∀ n q, Iterations mask sampleType cb n (m, s) q →
      (∀ fuel, drainLoop mask sampleType cb (fuel + n) m s =
        drainLoop mask sampleType cb fuel q.1 q.2) ∧
      ((∃ q', Iterates mask sampleType cb q q') ∨
        ∃ result, ∀ fuel, drainLoop mask sampleType cb (fuel + 1) q.1 q.2 = result)) ∧
    (∀ n q q', Iterations mask sampleType cb n (m, s) q → Iterates mask sampleType cb q q' →
      q.1.dataTail < q'.1.dataTail ∧ q'.1.dataTail ≤ q'.1.dataHead ∧
        q'.1.dataHead = m.dataHead) ∧
    (∀ n q, Iterations mask sampleType cb n (m, s) q → n ≤ m.dataHead - m.dataTail) ∧
    ∀ fuel, m.dataHead - m.dataTail < fuel →
      drainLoop mask sampleType cb fuel m s ≠ .error .outOfFuel := by
  have hm : Ordered m := ⟨hle, hlt⟩
  refine ⟨fun n q hn => ⟨hn.drainLoop_eq, ?_⟩, fun n q q' hn hiter => ?_, fun n q hn => ?_,
    fun fuel hfuel => drainLoop_ne_outOfFuel hcb hm hfuel⟩
  · rcases drainLoop_round q.1 q.2 with ⟨q', hiter, -⟩ | ⟨result, hresult, -⟩
    · exact .inl ⟨q', hiter⟩
    · exact .inr ⟨result, hresult⟩
  · obtain ⟨-, hc⟩ := hn.consumed hm
    obtain ⟨hforward, hc'⟩ := hiter.progress (hc.ordered hm)
    exact ⟨hforward, hc'.le_head, hc'.head_eq.trans hc.head_eq⟩
  · obtain ⟨hcount, hc⟩ := hn.consumed hm
    have hend := hc.le_head
    have hhead := hc.head_eq
    simp only at hcount hhead
    omega

/-- A ring of zeros but for the size in its first header. -/
def undersizedRing : PerfMmap := ⟨fun i => if i = 6 then 3 else 0, 16, 0⟩

/-- A record of three bytes is shorter than its own header: the tail goes back to the third
byte, which is still forward. -/
theorem drainLoop_progress_undersized :
    Iterates (pageMask (2 ^ 12)) 0 (fun _ s => .ok s) (undersizedRing, ())
        ({ undersizedRing with dataTail := 3 }, ()) ∧ undersizedRing.dataTail < 3 ∧
      drainLoop (pageMask (2 ^ 12)) 0 (fun _ s => .ok s) 17 undersizedRing () ≠
        .error .outOfFuel := by
  obtain ⟨-, hforward, -, hends⟩ := drainLoop_progress (pageMask (2 ^ 12)) 0
    (fun _ (s : Unit) => .ok s) nofun undersizedRing () (by decide) (by decide)
  have hiter : Iterates (pageMask (2 ^ 12)) 0 (fun _ s => .ok s) (undersizedRing, ())
      ({ undersizedRing with dataTail := 3 }, ()) := by
    refine ⟨by decide, ⟨0, 0, 3⟩, { undersizedRing with dataTail := 8 }, rfl, rfl⟩
  exact ⟨hiter, (hforward 0 _ _ (.zero _) hiter).1, hends 17 (by decide)⟩

end DroidPerf
