import DroidPerf.PerfMmap

/-!
# DroidPerf.PerfReadSound

What a read from a perf ring does to the caller's buffer and to the ring, for every content and
every value of the free-running counters (`perfReadBufferNbytes_spec`).

Nothing is assumed of the counters but that they are no further apart than the capacity, so
they may wrap around between tail and head. That a window may start at the counter reduced by
2^64 or not is `window_mod`, and that two reads are one is `window_add`.
-/

namespace DroidPerf

open Bytes

/-- `perf_read_buffer_nbytes` with the output at `buf + offset`: the return value, the
memory behind `buf` and the mapping after the call. -/
def perfReadInto (mask : Nat) (m : PerfMmap) (buf : Nat → UInt8) (offset n : Nat) :
    Int × (Nat → UInt8) × PerfMmap :=
  match perfReadBufferNbytes mask m n with
  | (ret, out, m) => (ret, copyTo buf offset out, m)

section Read

variable {k n : Nat} {m : PerfMmap}

/-- A read of more than there is changes nothing. -/
theorem perfReadInto_refused (mask : Nat) (buf : Nat → UInt8) (offset : Nat)
    (hn : sub64 m.dataHead m.dataTail < n) : perfReadInto mask m buf offset n = (1, buf, m) := by
  simp only [perfReadInto, perfReadBufferNbytes, if_pos hn, copyTo_nil]

/-- A read of what is there stores a window of the ring in the buffer. -/
theorem perfReadInto_window (hk : k < 32) (buf : Nat → UInt8) (offset : Nat)
    (hcap : sub64 m.dataHead m.dataTail ≤ 2 ^ k) (hn : n ≤ sub64 m.dataHead m.dataTail) :
    perfReadInto (pageMask (2 ^ k)) m buf offset n =
      (0, copyTo buf offset (window m.data (2 ^ k) m.dataTail n),
        { m with dataTail := add64 m.dataTail n }) := by
  rw [perfReadInto, perfReadBufferNbytes_window hk hcap hn]

/-- What is available after a read. -/
theorem sub64_add64 {head tail : Nat} (hn : n ≤ sub64 head tail) :
    sub64 head (add64 tail n) = sub64 head tail - n := by
  unfold sub64 add64 at *
  omega

/-- The second of two reads goes on where the first one stopped. -/
theorem perfReadInto_again (hk : k < 32) (buf : Nat → UInt8) {n' : Nat}
    (hcap : sub64 m.dataHead m.dataTail ≤ 2 ^ k) (hn : n + n' ≤ sub64 m.dataHead m.dataTail) :
    perfReadInto (pageMask (2 ^ k)) { m with dataTail := add64 m.dataTail n }
        (copyTo buf 0 (window m.data (2 ^ k) m.dataTail n)) n n' =
      perfReadInto (pageMask (2 ^ k)) m buf 0 (n + n') := by
  have hrest : sub64 m.dataHead (add64 m.dataTail n) = sub64 m.dataHead m.dataTail - n :=
    sub64_add64 (by omega)
  have hdvd : 2 ^ k ∣ 2 ^ 64 := Nat.pow_dvd_pow 2 (by omega)
  have hwindow : window m.data (2 ^ k) (add64 m.dataTail n) n' =
      window m.data (2 ^ k) (m.dataTail + n) n' := window_mod m.data (2 ^ k) hdvd _ _
  have hcopy := copyTo_append buf 0 (window m.data (2 ^ k) m.dataTail n)
    (window m.data (2 ^ k) (m.dataTail + n) n')
  rw [Nat.zero_add, length_window] at hcopy
  have htail : add64 (add64 m.dataTail n) n' = add64 m.dataTail (n + n') := by
    unfold add64
    omega
  rw [perfReadInto_window hk _ _ (by simp only; omega) (by simp only; omega),
    perfReadInto_window hk _ _ hcap hn, window_add]
  simp only [hwindow, hcopy, htail]

end Read

/-- **Reading from the ring.** In a ring of any capacity that is a power of two below 2^32,
with any counters whose difference is at most the capacity: a read of more than is there
returns 1 and changes nothing; any other read returns 0, stores the bytes from the tail on
around the edge, no others, and moves the tail; and two reads are one read of both lengths. -/
theorem perfReadBufferNbytes_spec {k : Nat} (hk : k < 32) (m : PerfMmap)
    (hcap : sub64 m.dataHead m.dataTail ≤ 2 ^ k) (buf : Nat → UInt8) (n : Nat) :
    (sub64 m.dataHead m.dataTail < n →
      perfReadInto (pageMask (2 ^ k)) m buf 0 n = (1, buf, m)) ∧
    (n ≤ sub64 m.dataHead m.dataTail → ∃ buf',
      perfReadInto (pageMask (2 ^ k)) m buf 0 n =
        (0, buf', { m with dataTail := add64 m.dataTail n }) ∧
      (∀ i < n, buf' i = m.data ((m.dataTail + i) % 2 ^ k)) ∧ ∀ i, n ≤ i → buf' i = buf i) ∧
    ∀ n', n + n' ≤ sub64 m.dataHead m.dataTail → ∃ buf₁ m₁,
      perfReadInto (pageMask (2 ^ k)) m buf 0 n = (0, buf₁, m₁) ∧
      perfReadInto (pageMask (2 ^ k)) m₁ buf₁ n n' =
        perfReadInto (pageMask (2 ^ k)) m buf 0 (n + n') := by
  refine ⟨perfReadInto_refused _ buf 0, fun hn => ?_, fun n' hn => ?_⟩
  · refine ⟨_, perfReadInto_window hk buf 0 hcap hn, fun i hi => ?_, fun i hi => ?_⟩
    · simp [copyTo, window, hi]
    · simp [copyTo, window, hi]
  · exact ⟨_, _, perfReadInto_window hk buf 0 hcap (by omega), perfReadInto_again hk buf hcap hn⟩

/-- A read across the edge of a ring of four bytes, with counters that wrap around. -/
theorem perfReadBufferNbytes_spec_edge : ∃ buf',
    perfReadInto (pageMask (2 ^ 2)) ⟨fun i => UInt8.ofNat i, 1, 2 ^ 64 - 1⟩ (fun _ => 9) 0 2 =
      (0, buf', ⟨fun i => UInt8.ofNat i, 1, 1⟩) ∧
    (∀ i < 2, buf' i = UInt8.ofNat ((2 ^ 64 - 1 + i) % 2 ^ 2)) ∧ ∀ i, 2 ≤ i → buf' i = 9 :=
  (perfReadBufferNbytes_spec (by decide) ⟨fun i => UInt8.ofNat i, 1, 2 ^ 64 - 1⟩ (by decide)
    (fun _ => 9) 2).2.1 (by decide)

end DroidPerf
