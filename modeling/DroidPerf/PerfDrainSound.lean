import DroidPerf.PerfInterface

/-!
# DroidPerf.PerfDrainSound

What the handler's drain loop makes of the records the kernel puts in a ring.

`Record.encode` is the kernel's layout of a record, for samples the one that `perf_attr_init`'s
`sample_type` selects: IP, TID, ADDR, CPU with its reserved word, and CALLCHAIN. The reader
consumes the fields up to `cpu` and stops there, so after a sample the next header is read from
the reserved word and the call chain's length (`drainLoop_rest`). That header is not a sample
and has size 0, which throws away the rest of the ring: a drain delivers the first sample and
no other (`drainLoop_records`).

The proofs follow the bytes. `Holds` gives the unread bytes as a list, each function of the
reader has a lemma that takes its bytes off the front of this list, and the loop lemmas are
about a list that begins with a whole header, with a whole record, or with what a sample leaves
behind. `drainsAll_iff` is then an account of the samples among the records.
-/

namespace DroidPerf

open Bytes

/-! ### Records as the kernel writes them

A record's layout is written out as a list of bytes, and the size in its header is the length
of this list. -/

/-- A `PERF_RECORD_SAMPLE` for the attributes of `perf_attr_init`. -/
structure SampleRecord where
  misc : UInt16
  ip : UInt64
  pid : UInt32
  tid : UInt32
  addr : UInt64
  cpu : UInt32
  ips : List UInt64
  /-- The record's size fits the 16-bit field of the header. -/
  fits : 48 + 8 * ips.length < 2 ^ 16

/-- A record of any other type. -/
structure OtherRecord where
  type : UInt32
  misc : UInt16
  payload : List UInt8
  not_sample : type.toNat ≠ perfRecordSample
  fits : 8 + payload.length < 2 ^ 16

inductive Record where
  | sample (r : SampleRecord)
  | other (r : OtherRecord)

/-- `struct perf_event_header` in memory. -/
def encodeHeader (type misc size : Nat) : List UInt8 :=
  bytesLE 4 type ++ (bytesLE 2 misc ++ bytesLE 2 size)

/-- The part of a sample that the reader leaves in the ring: the reserved word
after `cpu`, which the kernel writes as 0, and the call chain. -/
def SampleRecord.rest (r : SampleRecord) : List UInt8 :=
  bytesLE 4 0 ++ (bytesLE 8 r.ips.length ++ r.ips.flatMap fun ip => bytesLE 8 ip.toNat)

/-- A sample with the fields in the order of the kernel. -/
def SampleRecord.encode (r : SampleRecord) : List UInt8 :=
  encodeHeader perfRecordSample r.misc.toNat (48 + 8 * r.ips.length) ++
    (bytesLE 8 r.ip.toNat ++ (bytesLE 4 r.pid.toNat ++ (bytesLE 4 r.tid.toNat ++
      (bytesLE 8 r.addr.toNat ++ (bytesLE 4 r.cpu.toNat ++ r.rest)))))

/-- Any other record: a header and what it announces. -/
def OtherRecord.encode (r : OtherRecord) : List UInt8 :=
  encodeHeader r.type.toNat r.misc.toNat (8 + r.payload.length) ++ r.payload

def Record.encode : Record → List UInt8
  | .sample r => r.encode
  | .other r => r.encode

/-- A ring's unread bytes when it holds these records. -/
def encodeRecords (rs : List Record) : List UInt8 := rs.flatMap Record.encode

/-- The samples among the records, in order. -/
def samples : List Record → List SampleRecord
  | [] => []
  | .sample r :: rs => r :: samples rs
  | .other _ :: rs => samples rs

/-- The sample data a record stands for. -/
def SampleRecord.data (r : SampleRecord) : PerfSampleData :=
  ⟨r.ip.toNat, r.pid.toNat, r.tid.toNat, r.addr.toNat, r.cpu.toNat,
    r.misc.toNat &&& perfRecordMiscExactIp ≠ 0⟩

/-! ### Reading fields

Each lemma says: if the unread bytes begin with the encoding of a value, the function returns
the value, and the bytes behind it are unread. -/

/-- The mapping once `n` more bytes are consumed. -/
def PerfMmap.advance (m : PerfMmap) (n : Nat) : PerfMmap := { m with dataTail := m.dataTail + n }

@[simp] theorem PerfMmap.advance_dataHead (m : PerfMmap) (n : Nat) :
    (m.advance n).dataHead = m.dataHead := rfl

@[simp] theorem PerfMmap.advance_dataTail (m : PerfMmap) (n : Nat) :
    (m.advance n).dataTail = m.dataTail + n := rfl

section Fields

variable {k : Nat} {m : PerfMmap} {xs ys : List UInt8}

/-- The bytes behind those that were read. -/
theorem Holds.tail (h : Holds (2 ^ k) m (xs ++ ys)) :
    Holds (2 ^ k) (m.advance xs.length) ys := h.advance

/-- A field is read as the number that was written. -/
theorem copySampleData_holds (hk : k < 32) {w n : Nat} (hn : n < 256 ^ w)
    (h : Holds (2 ^ k) m (bytesLE w n ++ ys)) :
    copySampleData (pageMask (2 ^ k)) m w = some (n, m.advance w) ∧
      Holds (2 ^ k) (m.advance w) ys := by
  have hread := perfReadBufferNbytes_holds hk h
  have hrest := h.tail
  rw [length_bytesLE] at hread hrest
  refine ⟨?_, hrest⟩
  rw [copySampleData, hread]
  simp [ofBytesLE_bytesLE_of_lt hn, PerfMmap.advance]

/-- A header is read as the one that was written. -/
theorem perfReadHeader_holds (hk : k < 32) {type misc size : Nat} (htype : type < 256 ^ 4)
    (hmisc : misc < 256 ^ 2) (hsize : size < 256 ^ 2)
    (h : Holds (2 ^ k) m (encodeHeader type misc size ++ ys)) :
    perfReadHeader (pageMask (2 ^ k)) m = some (⟨type, misc, size⟩, m.advance 8) ∧
      Holds (2 ^ k) (m.advance 8) ys := by
  have hlen : (encodeHeader type misc size).length = 8 := by simp [encodeHeader]
  have hread := perfReadBufferNbytes_holds hk h
  have hrest := h.tail
  rw [hlen] at hread hrest
  refine ⟨?_, hrest⟩
  rw [perfReadHeader, sizeofHeader, hread]
  simp [encodeHeader, List.drop_append, PerfMmap.advance, List.take_of_length_le,
    List.drop_of_length_le, ofBytesLE_bytesLE_of_lt htype, ofBytesLE_bytesLE_of_lt hmisc,
    ofBytesLE_bytesLE_of_lt hsize]

/-- The remaining size is the number of unread bytes, if an `int` can hold it. -/
theorem perfNumOfRemainingData_holds (hk : k < 31) (h : Holds (2 ^ k) m xs) :
    perfNumOfRemainingData m = xs.length := by
  have hcap : 2 ^ k < 2 ^ 31 := Nat.pow_lt_pow_right (by decide) hk
  have hle := h.length_le
  rw [perfNumOfRemainingData, h.available, toInt32_of_lt (by omega)]

/-- Skipping all moves the tail to the head. -/
theorem perfSkipAll_holds (hk : k < 31) (h : Holds (2 ^ k) m xs) :
    perfSkipAll m = m.advance xs.length := by
  have hskip : perfSkipBufferNbytes m xs.length = m.advance xs.length := by
    rw [← List.append_nil xs] at h
    exact perfSkipBufferNbytes_holds h
  rw [perfSkipAll, perfNumOfRemainingData_holds hk h]
  split
  · exact hskip
  · have hxs : xs.length = 0 := by omega
    rw [hxs]
    rfl

theorem Holds.drained (h : Holds (2 ^ k) m xs) : Holds (2 ^ k) (m.advance xs.length) [] := by
  rw [← List.append_nil xs] at h
  exact h.advance

/-- With nothing unread the tail is at the head. -/
theorem Holds.tail_eq_head (h : Holds (2 ^ k) m []) : m.dataTail = m.dataHead := by
  simpa using h.head_eq.symm

/-- The `sample_type` of every event: `process_event_list` asks for the TID bit on
top of those of `perf_attr_init`. -/
def configuredSampleType (threshold : Nat) : Nat := (perfAttrInit threshold perfSampleTid).sampleType

/-- Reading a sample stops after the `cpu` word. -/
theorem perfReadRecordSample_holds (hk : k < 32) (threshold : Nat) (r : SampleRecord) {p : Bool}
    (h : Holds (2 ^ k) m (bytesLE 8 r.ip.toNat ++ (bytesLE 4 r.pid.toNat ++
      (bytesLE 4 r.tid.toNat ++ (bytesLE 8 r.addr.toNat ++ (bytesLE 4 r.cpu.toNat ++ ys)))))) :
    ∃ m', perfReadRecordSample (pageMask (2 ^ k)) m (configuredSampleType threshold)
        ⟨0, 0, 0, 0, 0, p⟩ =
          some (⟨r.ip.toNat, r.pid.toNat, r.tid.toNat, r.addr.toNat, r.cpu.toNat, p⟩, m') ∧
      Holds (2 ^ k) m' ys := by
  obtain ⟨hip, h⟩ := copySampleData_holds hk r.ip.toNat_lt h
  obtain ⟨hpid, h⟩ := copySampleData_holds hk r.pid.toNat_lt h
  obtain ⟨htid, h⟩ := copySampleData_holds hk r.tid.toNat_lt h
  obtain ⟨haddr, h⟩ := copySampleData_holds hk r.addr.toNat_lt h
  obtain ⟨hcpu, h⟩ := copySampleData_holds hk r.cpu.toNat_lt h
  have htype : configuredSampleType threshold = 171 := rfl
  refine ⟨_, ?_, h⟩
  simp [perfReadRecordSample, htype, perfSampleIp, perfSampleTid, perfSampleAddr, perfSampleCpu,
    hip, hpid, htid, haddr, hcpu]

end Fields

/-! ### Draining

A pass of the loop depends on the first bytes that are unread, so there is a lemma for each way
they can begin. -/

section Drain

variable {σ : Type} {k : Nat} {m : PerfMmap} {ys : List UInt8} {s : σ}

/-- More iterations do not change the result of a loop that ended. -/
theorem drainLoop_mono {mask sampleType : Nat} {cb : PerfSampleData → σ → Except Fault σ}
    {fuel : Nat} {q : PerfMmap × σ} (h : drainLoop mask sampleType cb fuel m s = .ok q)
    (extra : Nat) : drainLoop mask sampleType cb (fuel + extra) m s = .ok q := by
  induction fuel generalizing m s with
  | zero => simp [drainLoop] at h
  | succ fuel ih =>
      rw [Nat.add_right_comm, drainLoop]
      rw [drainLoop] at h
      split at h
      · rename_i hpos
        rw [if_pos hpos]
        split at h
        · rename_i hlt
          rw [if_pos hlt]
          exact h
        · rename_i hlt
          rw [if_neg hlt]
          split at h
          · cases h
          · rename_i ehdr m' hhdr
            obtain ⟨⟨m'', s'⟩, hrec, hloop⟩ := bind_eq_ok.mp h
            exact bind_eq_ok.mpr ⟨(m'', s'), hrec, ih hloop⟩
      · rename_i hpos
        rw [if_neg hpos]
        exact h

section Records

variable (cb : PerfSampleData → σ → Except Fault σ) (threshold : Nat)

/-- An empty ring ends the loop. -/
theorem drainLoop_empty (hk : k < 31) (h : Holds (2 ^ k) m []) (fuel : Nat) :
    drainLoop (pageMask (2 ^ k)) (configuredSampleType threshold) cb (fuel + 1) m s =
      .ok (m, s) := by
  simp [drainLoop, perfNumOfRemainingData_holds hk h]

/-- One iteration on a ring that starts with a whole header. -/
theorem drainLoop_header (hk : k < 31) {type misc size : Nat} (htype : type < 256 ^ 4)
    (hmisc : misc < 256 ^ 2) (hsize : size < 256 ^ 2)
    (h : Holds (2 ^ k) m (encodeHeader type misc size ++ ys)) (fuel : Nat) :
    drainLoop (pageMask (2 ^ k)) (configuredSampleType threshold) cb (fuel + 1) m s =
      (drainRecord (pageMask (2 ^ k)) (configuredSampleType threshold) cb ⟨type, misc, size⟩
        (m.advance 8) s >>= fun q =>
          drainLoop (pageMask (2 ^ k)) (configuredSampleType threshold) cb fuel q.1 q.2) := by
  have hrem := perfNumOfRemainingData_holds hk h
  have hlen : (encodeHeader type misc size ++ ys).length = 8 + ys.length := by
    simp [encodeHeader, ← Nat.add_assoc]
  rw [hlen] at hrem
  obtain ⟨hread, -⟩ := perfReadHeader_holds (Nat.lt_succ_of_lt hk) htype hmisc hsize h
  rw [drainLoop]
  simp only [hrem, sizeofHeader]
  rw [if_pos (by omega), if_neg (by omega), hread]

/-- A record that is not a sample is skipped whole. -/
theorem drainLoop_other (hk : k < 31) (r : OtherRecord)
    (h : Holds (2 ^ k) m (r.encode ++ ys)) :
    ∃ m', Holds (2 ^ k) m' ys ∧ ∀ fuel,
      drainLoop (pageMask (2 ^ k)) (configuredSampleType threshold) cb (fuel + 1) m s =
        drainLoop (pageMask (2 ^ k)) (configuredSampleType threshold) cb fuel m' s := by
  have hfits := r.fits
  rw [OtherRecord.encode, List.append_assoc] at h
  have hbody := (perfReadHeader_holds (Nat.lt_succ_of_lt hk) r.type.toNat_lt r.misc.toNat_lt
    hfits h).2
  refine ⟨_, hbody.tail, fun fuel => ?_⟩
  have hskip : perfSkipRecord (m.advance 8)
      ⟨r.type.toNat, r.misc.toNat, 8 + r.payload.length⟩ =
        (m.advance 8).advance r.payload.length := by
    have hsub : sub64 (8 + r.payload.length) sizeofHeader = r.payload.length := by
      unfold sub64 sizeofHeader
      omega
    rw [perfSkipRecord, hsub]
    exact perfSkipBufferNbytes_holds hbody
  rw [drainLoop_header cb threshold hk r.type.toNat_lt r.misc.toNat_lt hfits h, drainRecord,
    if_neg r.not_sample, if_neg (by simp), hskip]
  rfl

/-- What a sample leaves behind reads as an empty record, and the ring is thrown
away. -/
theorem drainLoop_rest (hk : k < 31) (r : SampleRecord)
    (h : Holds (2 ^ k) m (r.rest ++ ys)) :
    ∃ m' : PerfMmap, m'.dataTail = m'.dataHead ∧ ∀ (s : σ) (fuel : Nat),
      drainLoop (pageMask (2 ^ k)) (configuredSampleType threshold) cb (fuel + 2) m s =
        .ok (m', s) := by
  have hfits := r.fits
  have hnr : bytesLE 8 r.ips.length =
      bytesLE 2 r.ips.length ++ (bytesLE 2 (r.ips.length / 256 ^ 2) ++
        bytesLE 4 (r.ips.length / 256 ^ 2 / 256 ^ 2)) := by
    rw [← bytesLE_add, ← bytesLE_add]
  have hzero : r.ips.length / 256 ^ 2 = 0 := Nat.div_eq_of_lt (by omega)
  have h' : Holds (2 ^ k) m (encodeHeader 0 r.ips.length 0 ++ (bytesLE 4 0 ++
      (r.ips.flatMap fun ip => bytesLE 8 ip.toNat) ++ ys)) := by
    simpa only [SampleRecord.rest, hnr, hzero, Nat.zero_div, encodeHeader, List.append_assoc]
      using h
  have hbody := (perfReadHeader_holds (Nat.lt_succ_of_lt hk) (by decide) (by omega) (by decide)
    h').2
  refine ⟨_, hbody.drained.tail_eq_head, fun s fuel => ?_⟩
  rw [drainLoop_header cb threshold hk (by decide) (by omega) (by decide) h', drainRecord,
    if_neg (by simp [perfRecordSample]), if_pos rfl, perfSkipAll_holds hk hbody, ok_bind]
  exact drainLoop_empty cb threshold hk hbody.drained fuel

/-- A drain hands the first sample, if there is one, to the callback and consumes
everything. -/
theorem drainLoop_records (hk : k < 31) (rs : List Record)
    (h : Holds (2 ^ k) m (encodeRecords rs)) :
    ∃ m' : PerfMmap, m'.dataTail = m'.dataHead ∧
      drainLoop (pageMask (2 ^ k)) (configuredSampleType threshold) cb (rs.length + 2) m s =
        ((samples rs).take 1).foldlM (fun s r => cb r.data s) s >>= fun s => .ok (m', s) := by
  -- the induction is on the records: those in front of the first sample are skipped
  induction rs generalizing m with
  | nil => exact ⟨m, h.tail_eq_head, drainLoop_empty cb threshold hk h 1⟩
  | cons r rs ih =>
      rw [encodeRecords, List.flatMap_cons] at h
      cases r with
      | other r =>
          obtain ⟨m₁, h₁, hstep⟩ := drainLoop_other cb threshold hk r h
          obtain ⟨m', hm', hloop⟩ := ih h₁
          exact ⟨m', hm', by rw [List.length_cons, Nat.add_right_comm, hstep, hloop, samples]⟩
      | sample r =>
          have hfits := r.fits
          rw [Record.encode, SampleRecord.encode] at h
          simp only [List.append_assoc] at h
          have hbody := (perfReadHeader_holds (Nat.lt_succ_of_lt hk) (by decide) r.misc.toNat_lt
            hfits h).2
          obtain ⟨m₁, hread, hrest⟩ := perfReadRecordSample_holds (Nat.lt_succ_of_lt hk) threshold
            r hbody
          obtain ⟨m', hm', hloop⟩ := drainLoop_rest cb threshold hk r hrest
          refine ⟨m', hm', ?_⟩
          rw [List.length_cons, Nat.add_right_comm, drainLoop_header cb threshold hk (by decide)
            r.misc.toNat_lt hfits h, drainRecord, if_pos rfl, hread]
          have hone : (samples (.sample r :: rs)).take 1 = [r] := rfl
          rw [hone, List.foldlM_cons]
          show (((cb r.data s).map fun s => (m₁, s)) >>= _) = _
          cases hcb : cb r.data s with
          | error e => rfl
          | ok s' => exact hloop s' rs.length

end Records

end Drain

/-! ### One call per sample

A callback that only records its calls shows what a drain delivers. -/

/-- A sample callback that records its calls. -/
def recordCall (d : PerfSampleData) (calls : List PerfSampleData) :
    Except Fault (List PerfSampleData) := .ok (calls ++ [d])

/-- The fields of a sample that a record determines by its layout. -/
def PerfSampleData.fields (d : PerfSampleData) : Nat × Nat × Nat × Nat × Nat :=
  (d.ip, d.pid, d.tid, d.addr, d.cpu)

/-- Draining the ring `m`, which holds the records `rs`: the loop ends without a
failed assertion, with the ring empty and one call per sample, in order. -/
def DrainsAll (pageSize threshold : Nat) (m : PerfMmap) (rs : List Record) : Prop :=
  ∃ fuel m' calls, drainLoop (pageMask pageSize) (configuredSampleType threshold) recordCall fuel
      m [] = .ok (m', calls) ∧
    calls.map PerfSampleData.fields = (samples rs).map (fun r => r.data.fields) ∧
    m'.dataTail = m'.dataHead

/-- One call for each sample of the list. -/
theorem foldlM_recordCall (rs : List SampleRecord) (calls : List PerfSampleData) :
    rs.foldlM (fun s r => recordCall r.data s) calls =
      .ok (calls ++ rs.map SampleRecord.data) := by
  induction rs generalizing calls with
  | nil => simp [pure, Except.pure]
  | cons r rs ih =>
      rw [List.foldlM_cons, recordCall, ok_bind, ih, List.map_cons, List.append_assoc]
      rfl

section OneSample

variable {k : Nat} {threshold : Nat} {m : PerfMmap} {rs : List Record}

/-- With two samples or more, one call is too few. -/
theorem DrainsAll.length_samples_le (hk : k < 31) (h : Holds (2 ^ k) m (encodeRecords rs))
    (hall : DrainsAll (2 ^ k) threshold m rs) : (samples rs).length ≤ 1 := by
  obtain ⟨fuel, m'', calls, hrun, hcalls, -⟩ := hall
  obtain ⟨m', -, hloop⟩ := drainLoop_records recordCall threshold hk rs h (s := [])
  rw [foldlM_recordCall, ok_bind, List.nil_append] at hloop
  -- both loops ended, so with the fuel of the two they agree
  have hsame := drainLoop_mono hrun (rs.length + 2)
  rw [Nat.add_comm, drainLoop_mono hloop fuel] at hsame
  obtain ⟨-, rfl⟩ := Prod.mk.inj (Except.ok.inj hsame)
  have hlen := congrArg List.length hcalls
  simp only [List.length_map, List.length_take] at hlen
  omega

/-- With one sample at most, its call is all there is to make. -/
theorem drainsAll_of_length_samples_le (hk : k < 31) (h : Holds (2 ^ k) m (encodeRecords rs))
    (hle : (samples rs).length ≤ 1) : DrainsAll (2 ^ k) threshold m rs := by
  obtain ⟨m', hm', hloop⟩ := drainLoop_records recordCall threshold hk rs h (s := [])
  rw [foldlM_recordCall, ok_bind, List.nil_append, List.take_of_length_le hle] at hloop
  exact ⟨_, m', _, hloop, by rw [List.map_map]; rfl, hm'⟩

end OneSample

/-- **Draining a ring.** A ring is drained as its records say exactly when it holds at most one
sample: after a sample the reader is not at the next record's header. -/
theorem drainsAll_iff {k : Nat} (hk : k < 31) (threshold : Nat) (m : PerfMmap) (rs : List Record)
    (h : Holds (2 ^ k) m (encodeRecords rs)) :
    DrainsAll (2 ^ k) threshold m rs ↔ (samples rs).length ≤ 1 :=
  ⟨DrainsAll.length_samples_le hk h, drainsAll_of_length_samples_le hk h⟩

/-- A freshly mapped ring into which the kernel has written `bytes`. -/
def freshRing (bytes : List UInt8) : PerfMmap := ⟨fun i => bytes.getD i 0, bytes.length, 0⟩

/-- Nothing of a fresh ring has been read. -/
theorem freshRing_holds {k : Nat} (hk : k < 64) {bytes : List UInt8} (hle : bytes.length ≤ 2 ^ k) :
    Holds (2 ^ k) (freshRing bytes) bytes := by
  have hcap : 2 ^ k < 2 ^ 64 := Nat.pow_lt_pow_right (by decide) hk
  refine ⟨by simp [freshRing], by simp only [freshRing]; omega, hle, ?_⟩
  refine List.ext_getElem (by simp) fun i hi hi' => ?_
  simp [window, freshRing, Nat.mod_eq_of_lt (Nat.lt_of_lt_of_le hi' hle), hi']

/-- A sample with an empty call chain. -/
def plainSample (ip : UInt64) : SampleRecord := ⟨0, ip, 1, 1, 0, 0, [], by decide⟩

theorem drainsAll_one_sample :
    DrainsAll (2 ^ 12) 0 (freshRing (encodeRecords [.sample (plainSample 0x1000)]))
      [.sample (plainSample 0x1000)] :=
  (drainsAll_iff (by decide) 0 _ _ (freshRing_holds (by decide) (by decide))).mpr (by decide)

/-- Two samples in a row. -/
def twoSamples : List Record := [.sample (plainSample 0x1000), .sample (plainSample 0x2000)]

/-- The second of two samples is lost. -/
theorem two_samples_not_drained :
    Holds (2 ^ 12) (freshRing (encodeRecords twoSamples)) (encodeRecords twoSamples) ∧
      ¬ DrainsAll (2 ^ 12) 0 (freshRing (encodeRecords twoSamples)) twoSamples := by
  have hholds : Holds (2 ^ 12) (freshRing (encodeRecords twoSamples)) (encodeRecords twoSamples) :=
    freshRing_holds (by decide) (by decide)
  refine ⟨hholds, fun hall => ?_⟩
  exact absurd (hall.length_samples_le (by decide) hholds) (by decide)

end DroidPerf
