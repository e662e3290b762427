import DroidPerf.Lib.Bytes
import DroidPerf.Machine

/-!
# DroidPerf.PerfMmap

The reader side of the perf ring buffer (`perf_mmap.cpp`).

A mapping is the ring's bytes and the two free-running 64-bit counters of its control page;
counters and sizes are natural numbers with the wrap-around of the C types written out
(`add64`, `sub64`, `toInt32`). `data_head` is written by the kernel only and does not move
while a record is read.

The functions are those of the source. The lemmas at the end are what all later modules use of
them: a read of what is there is a window of the ring (`perfReadBufferNbytes_window`), with the
copy around the edge hidden in it, and in terms of `Holds` it takes the first bytes off the
unread ones.
-/

namespace DroidPerf

open Bytes

/-- `PERF_BUFFER_PAGES`. -/
def perfBufferPages : Nat := 1

/-- The value `perf_mmap_init` gives `page_mask` (a `uint32_t`). -/
def pageMask (pageSize : Nat) : Nat := (perfBufferPages * pageSize + (2 ^ 32 - 1)) % 2 ^ 32

/-- `perf_mmap_t` with the data area behind its control page. -/
structure PerfMmap where
  data : Nat → UInt8
  dataHead : Nat
  dataTail : Nat

/-- `struct perf_event_header`. -/
structure PerfEventHeader where
  type : Nat
  misc : Nat
  size : Nat
  deriving DecidableEq, Repr

/-- `sizeof(struct perf_event_header)`: a `u32` and two `u16`. -/
def sizeofHeader : Nat := 8

/-- `perf_sample_data_t`. -/
structure PerfSampleData where
  ip : Nat
  pid : Nat
  tid : Nat
  addr : Nat
  cpu : Nat
  isPrecise : Bool
  deriving DecidableEq, Repr

/-! ### Private operations

A read either takes as many bytes as asked for or changes nothing. A skip is cut to what there
is. -/

/-- `perf_skip_buffer_nbytes`. -/
def perfSkipBufferNbytes (m : PerfMmap) (n : Nat) : PerfMmap :=
  let n := if m.dataHead < add64 m.dataTail n then sub64 m.dataHead m.dataTail else n
  { m with dataTail := add64 m.dataTail n }

/-- `perf_read_buffer_nbytes` on a mapped buffer: the return value (0 success, 1
not enough data), the bytes stored in the output buffer, and the mapping after the
call. The copy is made of the bytes right of the tail and, when these do not
suffice, of bytes from the left edge. -/
def perfReadBufferNbytes (mask : Nat) (m : PerfMmap) (n : Nat) : Int × List UInt8 × PerfMmap :=
  let bytesAvailable := sub64 m.dataHead m.dataTail
  if bytesAvailable < n then (1, [], m)
  else
    let tail := m.dataTail &&& mask
    let bytesAtRight := sub64 ((mask + 1) % 2 ^ 32) tail
    let right := if bytesAtRight < n then bytesAtRight else n
    let out := (List.range right).map fun i => m.data (tail + i)
    let out := if right < n then out ++ (List.range (n - right)).map m.data else out
    (0, out, { m with dataTail := add64 m.dataTail n })

/-! ### Records

A record is a header with its type and size, and then what its type asks for. -/

/-- `perf_read_header`: the header when the read succeeded. -/
def perfReadHeader (mask : Nat) (m : PerfMmap) : Option (PerfEventHeader × PerfMmap) :=
  match perfReadBufferNbytes mask m sizeofHeader with
  | (ret, out, m') =>
    if ret = 0 then
      some (⟨ofBytesLE (out.take 4), ofBytesLE ((out.drop 4).take 2),
        ofBytesLE ((out.drop 6).take 2)⟩, m')
    else none

/-- `PERF_SAMPLE_IP`. -/
def perfSampleIp : Nat := 1
/-- `PERF_SAMPLE_TID`. -/
def perfSampleTid : Nat := 2
/-- `PERF_SAMPLE_ADDR`. -/
def perfSampleAddr : Nat := 8
/-- `PERF_SAMPLE_CALLCHAIN`. -/
def perfSampleCallchain : Nat := 32
/-- `PERF_SAMPLE_CPU`. -/
def perfSampleCpu : Nat := 128

/-- `COPY_SAMPLE_DATA`: read a field of the given size; `none` is its failed
assertion. -/
def copySampleData (mask : Nat) (m : PerfMmap) (size : Nat) : Option (Nat × PerfMmap) :=
  match perfReadBufferNbytes mask m size with
  | (ret, out, m') => if ret = 0 then some (ofBytesLE out, m') else none

/-- `perf_read_record_sample`: the fields in the order of their bits, each read if its bit is
set in the sample type. The call chain is not read. -/
def perfReadRecordSample (mask : Nat) (m : PerfMmap) (sampleType : Nat) (d : PerfSampleData) :
    Option (PerfSampleData × PerfMmap) := do
  let (d, m) ←
    if sampleType &&& perfSampleIp ≠ 0 then do
      let (ip, m) ← copySampleData mask m 8
      pure ({ d with ip := ip }, m)
    else pure (d, m)
  let (d, m) ←
    if sampleType &&& perfSampleTid ≠ 0 then do
      let (pid, m) ← copySampleData mask m 4
      let (tid, m) ← copySampleData mask m 4
      pure ({ d with pid := pid, tid := tid }, m)
    else pure (d, m)
  let (d, m) ←
    if sampleType &&& perfSampleAddr ≠ 0 then do
      let (addr, m) ← copySampleData mask m 8
      pure ({ d with addr := addr }, m)
    else pure (d, m)
  if sampleType &&& perfSampleCpu ≠ 0 then do
    let (cpu, m) ← copySampleData mask m 4
    pure ({ d with cpu := cpu }, m)
  else pure (d, m)

/-- `perf_num_of_remaining_data`. -/
def perfNumOfRemainingData (m : PerfMmap) : Int := toInt32 (sub64 m.dataHead m.dataTail)

/-- `perf_skip_record`: the length left after the header is computed in `size_t`. -/
def perfSkipRecord (m : PerfMmap) (ehdr : PerfEventHeader) : PerfMmap :=
  perfSkipBufferNbytes m (sub64 ehdr.size sizeofHeader)

/-- `perf_skip_all`. -/
def perfSkipAll (m : PerfMmap) : PerfMmap :=
  let remains := perfNumOfRemainingData m
  if 0 < remains then perfSkipBufferNbytes m remains.toNat else m

/-! ### What a reader sees

`Holds` is the reader's view of the ring: the bytes between the tail and the head,
in the order in which they are consumed. -/

/-- The unread part of the ring of capacity `cap` is `bytes`. -/
structure Holds (cap : Nat) (m : PerfMmap) (bytes : List UInt8) : Prop where
  head_eq : m.dataHead = m.dataTail + bytes.length
  head_lt : m.dataHead < 2 ^ 64
  length_le : bytes.length ≤ cap
  window_eq : window m.data cap m.dataTail bytes.length = bytes

section Reader

variable {cap k : Nat} {m : PerfMmap} {xs ys : List UInt8}

/-- With one page of a power of two, the mask has all lower bits. -/
theorem pageMask_two_pow (hk : k < 32) : pageMask (2 ^ k) = 2 ^ k - 1 := by
  have hpos : 0 < 2 ^ k := Nat.two_pow_pos k
  have hlt : 2 ^ k < 2 ^ 32 := Nat.pow_lt_pow_right (by decide) hk
  rw [pageMask, perfBufferPages]
  omega

/-- The bytes available are the unread ones. -/
theorem Holds.available (h : Holds cap m xs) : sub64 m.dataHead m.dataTail = xs.length := by
  have h₁ := h.head_eq
  have h₂ := h.head_lt
  unfold sub64
  omega

/-- What is left once the first bytes are consumed. -/
theorem Holds.advance (h : Holds cap m (xs ++ ys)) :
    Holds cap { m with dataTail := m.dataTail + xs.length } ys := by
  obtain ⟨hhead, hlt, hle, hwin⟩ := h
  rw [List.length_append] at hhead hle hwin
  rw [window_add] at hwin
  refine ⟨by simp only; omega, hlt, by omega, ?_⟩
  exact (List.append_inj hwin (by simp)).2

/-- A read of what is available takes the bytes from the tail on, wherever the edge lies
and whatever the counters are. -/
theorem perfReadBufferNbytes_window (hk : k < 32) {n : Nat}
    (hcap : sub64 m.dataHead m.dataTail ≤ 2 ^ k) (hn : n ≤ sub64 m.dataHead m.dataTail) :
    perfReadBufferNbytes (pageMask (2 ^ k)) m n =
      (0, window m.data (2 ^ k) m.dataTail n, { m with dataTail := add64 m.dataTail n }) := by
  have hpos : 0 < 2 ^ k := Nat.two_pow_pos k
  have hlt : 2 ^ k < 2 ^ 32 := Nat.pow_lt_pow_right (by decide) hk
  have htail : m.dataTail &&& pageMask (2 ^ k) = m.dataTail % 2 ^ k := by
    rw [pageMask_two_pow hk, Nat.and_two_pow_sub_one_eq_mod]
  have hmod : m.dataTail % 2 ^ k < 2 ^ k := Nat.mod_lt _ hpos
  have hright : sub64 ((pageMask (2 ^ k) + 1) % 2 ^ 32) (m.dataTail % 2 ^ k) =
      2 ^ k - m.dataTail % 2 ^ k := by
    rw [pageMask_two_pow hk, Nat.sub_add_cancel hpos, sub64]
    omega
  have hwrap := window_eq_wrap m.data (2 ^ k) m.dataTail n hpos (hn.trans hcap)
  simp only [perfReadBufferNbytes, htail, hright]
  rw [if_neg (Nat.not_lt.mpr hn)]
  refine Prod.ext rfl (Prod.ext ?_ rfl)
  by_cases hlr : 2 ^ k - m.dataTail % 2 ^ k < n
  · rw [if_pos hlr, if_pos hlr]
    rw [Nat.min_eq_left (Nat.le_of_lt hlr)] at hwrap
    exact hwrap.symm
  · rw [if_neg hlr, if_neg (Nat.lt_irrefl _)]
    rw [Nat.min_eq_right (Nat.le_of_not_lt hlr), Nat.sub_self] at hwrap
    simpa using hwrap.symm

/-- Reading what is there: the bytes come out in order. -/
theorem perfReadBufferNbytes_holds (hk : k < 32) (h : Holds (2 ^ k) m (xs ++ ys)) :
    perfReadBufferNbytes (pageMask (2 ^ k)) m xs.length =
      (0, xs, { m with dataTail := m.dataTail + xs.length }) := by
  have havail := h.available
  have hhead := h.head_eq
  have hlt := h.head_lt
  have hle := h.length_le
  have hwin : window m.data (2 ^ k) m.dataTail xs.length = xs := by
    have hwin := h.window_eq
    rw [List.length_append, window_add] at hwin
    exact (List.append_inj hwin (by simp)).1
  rw [List.length_append] at havail hhead hle
  have hadd : add64 m.dataTail xs.length = m.dataTail + xs.length := by
    unfold add64
    omega
  rw [perfReadBufferNbytes_window hk (by omega) (by omega), hwin, hadd]

/-- A skip within the unread part moves the tail by exactly that much. -/
theorem perfSkipBufferNbytes_holds (h : Holds cap m (xs ++ ys)) :
    perfSkipBufferNbytes m xs.length = { m with dataTail := m.dataTail + xs.length } := by
  have hhead := h.head_eq
  have hlt := h.head_lt
  rw [List.length_append] at hhead
  unfold perfSkipBufferNbytes add64
  rw [if_neg (by omega)]
  simp only [PerfMmap.mk.injEq, true_and]
  omega

end Reader

end DroidPerf
