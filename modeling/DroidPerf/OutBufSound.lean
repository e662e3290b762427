import DroidPerf.OutBuf
import Mathlib.Algebra.BigOperators.Group.List.Basic
import Mathlib.Algebra.Order.Ring.Int

/-!
# DroidPerf.OutBufSound

What reaches the file through the buffer of an output stream.

The **stream** of a buffer is what is in the file and behind it what is held. `Passed` says how
an operation changes it: by the bytes it takes, unless a flush fails half-way. A flush that
fails after `a` of its `u` bytes keeps `a` bytes in the buffer where `u - a` are left, so the
stream has `2 * a - u` bytes too many; `Passed` counts these. It holds of one flush and of one
copy, and what holds of two operations holds of both in turn (`Passed.trans`).

So `OutbufFile.step_passed` is the step lemma and `OutbufFile.run_passed` the run lemma, from
which `outbuf_run_stream` follows. The loops are described beforehand without their fuel: a
flush that ended is `Flushed`, and a round of a write is given by `copyLoop_round`.

The last two parts are about special disks: on one that takes what it is given, and on one that
takes nothing, the result of a call can be computed.
-/

namespace DroidPerf

open HpcioOutbuf

/-! ### The memory of a buffer

What the operations on the memory do to the bytes in use and to the size, which stays. -/

namespace HpcioOutbuf

/-- To set `in_use` does not change the size of the buffer. -/
@[simp] theorem bufSize_setInUse (n : Nat) (b : HpcioOutbuf) :
    (b.setInUse n).bufSize = b.bufSize := by
  simp [setInUse, bufSize]
  omega

/-- To move bytes down does not change the size of the buffer. -/
@[simp] theorem bufSize_moveDown (n : Nat) (b : HpcioOutbuf) :
    (b.moveDown n).bufSize = b.bufSize := by
  simp [moveDown, bufSize, inUse]

/-- To copy data in does not change the size of the buffer, if there is room for the data. -/
theorem bufSize_copyIn {data : List UInt8} {b : HpcioOutbuf}
    (h : data.length ≤ b.bufSize - b.inUse) : (b.copyIn data).bufSize = b.bufSize := by
  unfold bufSize inUse at h
  simp [copyIn, bufSize]
  omega

/-- The bytes in use grow by the data. -/
@[simp] theorem inUse_copyIn (data : List UInt8) (b : HpcioOutbuf) :
    (b.copyIn data).inUse = b.inUse + data.length := by
  simp [copyIn, inUse]

/-- A buffer with nothing in use holds nothing. -/
@[simp] theorem held_setInUse_zero (b : HpcioOutbuf) : (b.setInUse 0).held = [] := by
  simp [setInUse]

/-- The data comes behind what is held. -/
@[simp] theorem held_copyIn (data : List UInt8) (b : HpcioOutbuf) :
    (b.copyIn data).held = b.held ++ data := rfl

/-- To copy nothing changes nothing. -/
@[simp] theorem copyIn_nil (b : HpcioOutbuf) : b.copyIn [] = b := by
  simp [copyIn]

/-- Two pieces can be copied as one. -/
theorem copyIn_copyIn (data data' : List UInt8) (b : HpcioOutbuf) :
    (b.copyIn data).copyIn data' = b.copyIn (data ++ data') := by
  simp [copyIn, List.drop_drop]

/-- What a flush keeps that fails after `n` bytes: of the bytes it has not written, the first
`n`, and behind these older ones when there are not so many. -/
theorem held_failed {n : Nat} {b : HpcioOutbuf} (h : n ≤ b.inUse) :
    ((b.moveDown n).setInUse n).held =
      (b.held.drop n ++ b.held.drop (b.inUse - n)).take n := by
  unfold inUse at h
  rw [setInUse, moveDown, List.take_append_of_le_length]
  simp [inUse]
  omega

end HpcioOutbuf

namespace OutbufFile

/-- What has been written, and behind it what is held. -/
def stream (o : OutbufFile) : List UInt8 := o.file ++ o.outbuf.held

/-- A failed flush that leaves the stream as it is: it fails at once, or with as many bytes
written as are left. -/
def Harmless (failure : Nat × Nat) : Prop := failure.1 = 0 ∨ 2 * failure.1 = failure.2

/-- The bytes that a failed flush adds to the stream. -/
def surplus (failure : Nat × Nat) : Int :=
  if failure.1 = 0 then 0 else 2 * failure.1 - failure.2

/-- What an operation that takes `data` does to the stream. -/
structure Passed (data : List UInt8) (o o' : OutbufFile) : Prop where
  bufSize : o'.outbuf.bufSize = o.outbuf.bufSize
  failures : o.failures <+: o'.failures
  stream : (∀ failure ∈ o'.failures, Harmless failure) → o'.stream = o.stream ++ data
  length : (o'.stream.length : Int) + (o.failures.map surplus).sum =
    o.stream.length + data.length + (o'.failures.map surplus).sum

/-- An operation that does nothing passes nothing. -/
theorem Passed.refl (o : OutbufFile) : Passed [] o o :=
  ⟨rfl, List.prefix_refl _, fun _ => (List.append_nil _).symm, by simp⟩

/-- What two operations pass is passed by both, one behind the other. -/
theorem Passed.trans {data data' : List UInt8} {o o₁ o' : OutbufFile} (h : Passed data o o₁)
    (h' : Passed data' o₁ o') : Passed (data ++ data') o o' where
  bufSize := h'.bufSize.trans h.bufSize
  failures := h.failures.trans h'.failures
  stream hharmless := by
    have hfirst := h.stream fun failure hmem => hharmless failure (h'.failures.subset hmem)
    rw [h'.stream hharmless, hfirst, List.append_assoc]
  length := by
    have hfirst := h.length
    have hsecond := h'.length
    rw [List.length_append]
    push_cast
    omega

end OutbufFile

open OutbufFile

variable {env : OutbufEnv} {fuel : Nat} {o o' : OutbufFile}

/-! ### Flushing

The loop of a flush writes from a position on. What it leaves depends only on how it ended: at
the end of the bytes, or after a part of them. -/

/-- One more call of `write`. -/
def OutbufFile.called (o : OutbufFile) : OutbufFile := { o with writeCalls := o.writeCalls + 1 }

/-- A call that takes `ret` bytes behind the first `amtDone` ones. -/
def OutbufFile.wroteOut (amtDone ret : Nat) (o : OutbufFile) : OutbufFile :=
  { o.called with file := o.file ++ (o.outbuf.held.drop amtDone).take ret }

/-- The results of `write` that end a flush. -/
def WriteOutcome.Fails (outcome : WriteOutcome) : Prop := outcome = .failed ∨ outcome = .wrote 0

section FlushLoop

variable {amtDone : Nat}

/-- With everything written the buffer is empty. -/
theorem flushLoop_done (h : o.outbuf.inUse ≤ amtDone) :
    flushLoop env fuel amtDone o = .ok (true, { o with outbuf := o.outbuf.setInUse 0 }) := by
  rw [flushLoop.eq_def]
  exact if_neg (Nat.not_lt.mpr h)

/-- With something left and no fuel the loop does not end. -/
theorem flushLoop_zero (h : amtDone < o.outbuf.inUse) :
    flushLoop env 0 amtDone o = .error .outOfFuel := by
  rw [flushLoop, if_pos h]

/-- An interrupted call is made once more. -/
theorem flushLoop_interrupted (h : amtDone < o.outbuf.inUse)
    (hwrite : env.writes o.writeCalls = .interrupted) :
    flushLoop env (fuel + 1) amtDone o = flushLoop env fuel amtDone o.called := by
  rw [flushLoop, if_pos h]
  simp only [hwrite]
  rfl

/-- A call that fails ends the flush. -/
theorem flushLoop_fails (h : amtDone < o.outbuf.inUse) (hwrite : (env.writes o.writeCalls).Fails) :
    flushLoop env (fuel + 1) amtDone o = .ok (false, failFlush amtDone o.called) := by
  rw [flushLoop, if_pos h]
  rcases hwrite with hwrite | hwrite
  · simp only [hwrite]
    rfl
  · simp [hwrite, called]

/-- A call that takes some bytes goes on behind them. -/
theorem flushLoop_wrote (h : amtDone < o.outbuf.inUse) {room : Nat} (hroom : 0 < room)
    (hwrite : env.writes o.writeCalls = .wrote room) :
    flushLoop env (fuel + 1) amtDone o =
      flushLoop env fuel (amtDone + min room (o.outbuf.inUse - amtDone))
        (o.wroteOut amtDone (min room (o.outbuf.inUse - amtDone))) := by
  have hret : 0 < min room (o.outbuf.inUse - amtDone) := by omega
  rw [flushLoop, if_pos h]
  simp only [hwrite, if_pos hret]
  rfl

/-- The ways a round of the loop can go. -/
theorem outcome_cases (outcome : WriteOutcome) : outcome = .interrupted ∨ outcome.Fails ∨
    ∃ room, 0 < room ∧ outcome = .wrote room := by
  cases outcome with
  | interrupted => exact .inl rfl
  | failed => exact .inr (.inl (.inl rfl))
  | wrote room =>
      rcases Nat.eq_zero_or_pos room with rfl | hroom
      · exact .inr (.inl (.inr rfl))
      · exact .inr (.inr ⟨room, hroom, rfl⟩)

end FlushLoop

/-- What a flush does behind the first `amtDone` bytes: it writes the others, or it fails after
`n` bytes in all because a call of `write` does. -/
inductive Flushed (env : OutbufEnv) (amtDone : Nat) (o o' : OutbufFile) : Bool → Prop
  | all (file : o'.file = o.file ++ o.outbuf.held.drop amtDone)
      (outbuf : o'.outbuf = o.outbuf.setInUse 0) (failures : o'.failures = o.failures) :
      Flushed env amtDone o o' true
  | part (n : Nat) (lower : amtDone ≤ n) (upper : n < o.outbuf.inUse)
      (file : o'.file = o.file ++ (o.outbuf.held.drop amtDone).take (n - amtDone))
      (outbuf : o'.outbuf = (failFlush n o).outbuf)
      (failures : o'.failures = o.failures ++ [(n, o.outbuf.inUse)])
      (fails : ∃ i, (env.writes i).Fails) : Flushed env amtDone o o' false

section Flushed

variable {amtDone : Nat} {done : Bool}

/-- An interrupted call changes nothing. -/
theorem Flushed.called (h : Flushed env amtDone o.called o' done) :
    Flushed env amtDone o o' done := by
  cases h with
  | all file outbuf failures => exact .all file outbuf failures
  | part n lower upper file outbuf failures fails =>
      exact .part n lower upper file outbuf failures fails

/-- A round that writes `ret` bytes, and the rounds behind it. -/
theorem Flushed.wroteOut {ret : Nat}
    (h : Flushed env (amtDone + ret) (o.wroteOut amtDone ret) o' done) :
    Flushed env amtDone o o' done := by
  cases h with
  | all file outbuf failures =>
      refine .all ?_ outbuf failures
      rw [file, OutbufFile.wroteOut, List.append_assoc, ← List.drop_drop]
      simp [OutbufFile.called]
  | part n lower upper file outbuf failures fails =>
      refine .part n (by omega) upper ?_ outbuf failures fails
      have hsplit : n - amtDone = ret + (n - (amtDone + ret)) := by omega
      rw [file, OutbufFile.wroteOut, List.append_assoc, hsplit, List.take_add, List.drop_drop]
      rfl

/-- A loop that ends is one of the two. -/
theorem flushLoop_flushed (hamt : amtDone ≤ o.outbuf.inUse)
    (h : flushLoop env fuel amtDone o = .ok (done, o')) : Flushed env amtDone o o' done := by
  induction fuel generalizing amtDone o with
  | zero =>
      rcases Nat.lt_or_eq_of_le hamt with hlt | rfl
      · rw [flushLoop_zero hlt] at h
        cases h
      · rw [flushLoop_done (Nat.le_refl _)] at h
        cases h
        exact .all (by simp [inUse]) rfl rfl
  | succ fuel ih =>
      rcases Nat.lt_or_eq_of_le hamt with hlt | rfl
      · -- one round, for each result of `write`
        rcases outcome_cases (env.writes o.writeCalls) with hout | hout | ⟨room, hroom, hout⟩
        · rw [flushLoop_interrupted hlt hout] at h
          exact (ih (o := o.called) hamt h).called
        · rw [flushLoop_fails hlt hout] at h
          cases h
          exact .part amtDone (Nat.le_refl _) hlt (by simp [failFlush, called]) rfl rfl ⟨_, hout⟩
        · rw [flushLoop_wrote hlt hroom hout] at h
          refine (ih ?_ h).wroteOut
          show amtDone + min room (o.outbuf.inUse - amtDone) ≤ o.outbuf.inUse
          omega
      · rw [flushLoop_done (Nat.le_refl _)] at h
        cases h
        exact .all (by simp [inUse]) rfl rfl

/-- A flush is the loop from the first byte on. -/
theorem outbufFlushBuffer_flushed (h : outbufFlushBuffer env fuel o = .ok (done, o')) :
    Flushed env 0 o o' done :=
  flushLoop_flushed (Nat.zero_le _) h

/-- What a failed flush does to the stream. -/
theorem stream_failed {n : Nat} (h : n < o.outbuf.inUse)
    (hfile : o'.file = o.file ++ o.outbuf.held.take n)
    (houtbuf : o'.outbuf = (failFlush n o).outbuf) :
    (Harmless (n, o.outbuf.inUse) → o'.stream = o.stream) ∧
      (o'.stream.length : Int) = o.stream.length + surplus (n, o.outbuf.inUse) := by
  have hlen : o.outbuf.held.length = o.outbuf.inUse := rfl
  rcases Nat.eq_zero_or_pos n with rfl | hpos
  · have hstream : o'.stream = o.stream := by
      simp [stream, hfile, houtbuf, failFlush]
    simp [hstream, surplus]
  · -- as many bytes are kept as were written, whatever is left
    have hheld : o'.outbuf.held = (o.outbuf.held.drop n ++
        o.outbuf.held.drop (o.outbuf.inUse - n)).take n := by
      rw [houtbuf, failFlush, if_pos hpos, held_failed (Nat.le_of_lt h)]
    constructor
    · rintro (hzero | hhalf)
      · exact absurd hzero (by omega)
      · -- as many bytes are left as are kept
        have hleft : (o.outbuf.held.drop n).length = n := by
          rw [List.length_drop, hlen]
          omega
        have hkept : (o.outbuf.held.drop n ++ o.outbuf.held.drop (o.outbuf.inUse - n)).take n =
            o.outbuf.held.drop n := by
          rw [List.take_append_of_le_length (by omega), List.take_of_length_le (by omega)]
        rw [stream, stream, hfile, hheld, hkept, List.append_assoc, List.take_append_drop]
    · rw [stream, stream, hfile, hheld]
      simp [surplus, hlen]
      omega

/-- A flush takes no bytes. -/
theorem Flushed.passed (h : Flushed env 0 o o' done) : Passed [] o o' := by
  cases h with
  | all file outbuf failures =>
      have hstream : o'.stream = o.stream := by simp [stream, file, outbuf]
      refine ⟨by simp [outbuf], by simp [failures], fun _ => by simp [hstream], ?_⟩
      rw [hstream, failures]
      simp
  | part n _ upper file outbuf failures =>
      obtain ⟨hharmless, hlength⟩ := stream_failed upper (by simpa using file) outbuf
      refine ⟨?_, failures ▸ List.prefix_append _ _, fun hall => ?_, ?_⟩
      · rw [outbuf, failFlush]
        split
        · simp
        · rfl
      · rw [List.append_nil]
        exact hharmless (hall _ (by simp [failures]))
      · rw [failures, hlength]
        simp
        omega

end Flushed

/-! ### Copying

A round of a write flushes if the buffer has no room for the rest, and then copies what there
is room for. -/

/-- Data that is copied in is taken. -/
theorem Passed.copyIn {data : List UInt8} (h : data.length ≤ o.outbuf.bufSize - o.outbuf.inUse) :
    Passed data o { o with outbuf := o.outbuf.copyIn data } := by
  refine ⟨bufSize_copyIn h, List.prefix_refl _, fun _ => ?_, ?_⟩
  · simp [stream]
  · simp [stream]
    omega

section CopyLoop

variable {data : List UInt8} {rounds amtDone n : Nat}

/-- With everything copied the loop ends. -/
theorem copyLoop_done (h : data.length ≤ amtDone) :
    copyLoop env fuel data rounds amtDone o = .ok (amtDone, o) := by
  rw [copyLoop.eq_def]
  exact if_neg (Nat.not_lt.mpr h)

/-- What the rest of a round copies. -/
def copyRest (data : List UInt8) (amtDone : Nat) (o : OutbufFile) : List UInt8 :=
  (data.drop amtDone).take (min (data.length - amtDone) (o.outbuf.bufSize - o.outbuf.inUse))

/-- There is room for all of the data behind the bytes in use. -/
def RoomFor (data : List UInt8) (o : OutbufFile) : Prop :=
  data.length ≤ o.outbuf.bufSize - o.outbuf.inUse

/-- As much as is left, or as there is room for. -/
theorem length_copyRest : (copyRest data amtDone o).length =
    min (data.length - amtDone) (o.outbuf.bufSize - o.outbuf.inUse) := by
  simp [copyRest]

/-- A round with room for the data. -/
theorem copyLoop_fits (h : amtDone < data.length) (hfits : RoomFor data o) :
    copyLoop env fuel data (rounds + 1) amtDone o =
      copyLoop env fuel data rounds (amtDone + (copyRest data amtDone o).length)
        { o with outbuf := o.outbuf.copyIn (copyRest data amtDone o) } := by
  have hflush : decide (o.outbuf.bufSize - o.outbuf.inUse < data.length) = false :=
    decide_eq_false (Nat.not_lt.mpr hfits)
  rw [copyLoop, if_pos h, hflush, length_copyRest]
  rfl

/-- A round with a flush. -/
theorem copyLoop_flush (h : amtDone < data.length) (hfits : ¬RoomFor data o) {done : Bool}
    {o₁ : OutbufFile} (hflush : outbufFlushBuffer env fuel o = .ok (done, o₁)) :
    copyLoop env fuel data (rounds + 1) amtDone o =
      if o₁.outbuf.inUse = o₁.outbuf.bufSize then .ok (amtDone, o₁)
      else copyLoop env fuel data rounds (amtDone + (copyRest data amtDone o₁).length)
        { o₁ with outbuf := o₁.outbuf.copyIn (copyRest data amtDone o₁) } := by
  have hfull : decide (o.outbuf.bufSize - o.outbuf.inUse < data.length) = true :=
    decide_eq_true (Nat.not_le.mp hfits)
  rw [copyLoop, if_pos h, hfull, length_copyRest]
  simp only [if_true, hflush, true_and]
  rfl

/-- A round of the loop: the flush, when there is one, and the copy. -/
theorem copyLoop_round (h : amtDone < data.length)
    (hok : copyLoop env fuel data (rounds + 1) amtDone o = .ok (n, o')) :
    ∃ o₁, ((RoomFor data o ∧ o₁ = o) ∨ ¬RoomFor data o ∧ ∃ done, Flushed env 0 o o₁ done) ∧
      ((¬RoomFor data o ∧ o₁.outbuf.inUse = o₁.outbuf.bufSize ∧ n = amtDone ∧ o' = o₁) ∨
        copyLoop env fuel data rounds (amtDone + (copyRest data amtDone o₁).length)
          { o₁ with outbuf := o₁.outbuf.copyIn (copyRest data amtDone o₁) } = .ok (n, o')) := by
  rw [copyLoop, if_pos h] at hok
  obtain ⟨o₁, hflush, hok⟩ := bind_eq_ok.mp hok
  refine ⟨o₁, ?_, ?_⟩
  · -- the buffer is flushed if it has no room for all of the rest
    split at hflush
    · rename_i hfull
      obtain ⟨⟨done, o₂⟩, hok', hsnd⟩ := map_eq_ok.mp hflush
      cases hsnd
      exact .inr ⟨Nat.not_le.mpr (of_decide_eq_true hfull), done, outbufFlushBuffer_flushed hok'⟩
    · rename_i hroom
      cases hflush
      exact .inl ⟨Nat.not_lt.mp (of_decide_eq_false (Bool.not_eq_true _ ▸ hroom)), rfl⟩
  · split at hok
    · rename_i hfull
      cases hok
      exact .inl ⟨Nat.not_le.mpr (of_decide_eq_true hfull.1), hfull.2, rfl, rfl⟩
    · refine .inr ?_
      rw [length_copyRest]
      exact hok

/-- A round copies from the front of the rest. -/
theorem copyRest_prefix (data : List UInt8) (amtDone : Nat) (o : OutbufFile) :
    copyRest data amtDone o <+: data.drop amtDone :=
  List.take_prefix _ _

/-- All rounds: what was copied is taken, from the position of the loop on. -/
theorem copyLoop_passed (hamt : amtDone ≤ data.length)
    (h : copyLoop env fuel data rounds amtDone o = .ok (n, o')) :
    amtDone ≤ n ∧ n ≤ data.length ∧ Passed ((data.drop amtDone).take (n - amtDone)) o o' := by
  induction rounds generalizing amtDone o with
  | zero =>
      rcases Nat.lt_or_eq_of_le hamt with hlt | rfl
      · rw [copyLoop, if_pos hlt] at h
        cases h
      · rw [copyLoop_done (Nat.le_refl _)] at h
        cases h
        exact ⟨Nat.le_refl _, Nat.le_refl _, by simpa using Passed.refl _⟩
  | succ rounds ih =>
      rcases Nat.lt_or_eq_of_le hamt with hlt | rfl
      · obtain ⟨o₁, hflush, hrest⟩ := copyLoop_round hlt h
        have hpassed : Passed [] o o₁ := by
          rcases hflush with ⟨-, rfl⟩ | ⟨-, done, hflush⟩
          · exact .refl _
          · exact hflush.passed
        rcases hrest with ⟨-, -, rfl, rfl⟩ | hrest
        · exact ⟨Nat.le_refl _, hamt, by simpa using hpassed⟩
        · have hprefix := copyRest_prefix data amtDone o₁
          have hle := hprefix.length_le
          rw [List.length_drop] at hle
          obtain ⟨hlower, hupper, hlater⟩ := ih (by omega) hrest
          have hcopy : Passed (copyRest data amtDone o₁) o₁ _ := Passed.copyIn (by simp [copyRest])
          refine ⟨by omega, hupper, ?_⟩
          -- the bytes of this round and those of the later ones
          have hsplit : (data.drop amtDone).take (n - amtDone) = copyRest data amtDone o₁ ++
              (data.drop (amtDone + (copyRest data amtDone o₁).length)).take
                (n - (amtDone + (copyRest data amtDone o₁).length)) := by
            have hnum : n - amtDone = (copyRest data amtDone o₁).length +
                (n - (amtDone + (copyRest data amtDone o₁).length)) := by omega
            rw [hnum, List.take_add, List.drop_drop, ← List.prefix_iff_eq_take.mp hprefix]
          rw [hsplit]
          simpa using hpassed.trans (hcopy.trans hlater)
      · rw [copyLoop_done (Nat.le_refl _)] at h
        cases h
        exact ⟨Nat.le_refl _, Nat.le_refl _, by simpa using Passed.refl _⟩

end CopyLoop

/-! ### Calls

Each call on a buffer passes the bytes that it takes, and a run those of its calls. -/

/-- A write takes a part of the data from its start on, or fails. -/
theorem hpcioOutbufWrite_passed {data : List UInt8} {ret : Int}
    (h : hpcioOutbufWrite env fuel data o = .ok (ret, o')) :
    ret ≤ data.length ∧ Passed (data.take ret.toNat) o o' := by
  unfold hpcioOutbufWrite at h
  split at h
  · cases h
    exact ⟨by omega, by simpa using Passed.refl _⟩
  · obtain ⟨⟨n, o₁⟩, hloop, h⟩ := bind_eq_ok.mp h
    cases h
    obtain ⟨-, hle, hpassed⟩ := copyLoop_passed (Nat.zero_le _) hloop
    exact ⟨by omega, by simpa using hpassed⟩

/-- A flush takes no bytes. -/
theorem hpcioOutbufFlush_passed {done : Bool}
    (h : hpcioOutbufFlush env fuel o = .ok (done, o')) : Passed [] o o' := by
  unfold hpcioOutbufFlush at h
  split at h
  · cases h
    exact .refl _
  · exact (outbufFlushBuffer_flushed h).passed

/-- To close the file takes no bytes. -/
theorem hpcioOutbufClose_passed {done : Bool}
    (h : hpcioOutbufClose env fuel o = .ok (done, o')) : Passed [] o o' := by
  unfold hpcioOutbufClose at h
  split at h
  · cases h
    exact .refl _
  · obtain ⟨⟨flushed, o₁⟩, hflush, h⟩ := bind_eq_ok.mp h
    have hpassed := (outbufFlushBuffer_flushed hflush).passed
    dsimp only at h
    by_cases hboth : flushed = true ∧ env.closes = true
    · rw [if_pos hboth] at h
      cases h
      exact ⟨hpassed.bufSize, hpassed.failures, hpassed.stream, hpassed.length⟩
    · rw [if_neg hboth] at h
      cases h
      exact hpassed

/-- The step lemma: a call passes the bytes that it takes. -/
theorem OutbufFile.step_passed {call : OutbufCall} {taken : List UInt8}
    (h : o.step env fuel call = .ok (taken, o')) : Passed taken o o' := by
  cases call with
  | write data =>
      obtain ⟨⟨ret, o₁⟩, hwrite, h⟩ := map_eq_ok.mp h
      cases h
      exact (hpcioOutbufWrite_passed hwrite).2
  | flush =>
      obtain ⟨⟨done, o₁⟩, hflush, h⟩ := map_eq_ok.mp h
      cases h
      exact hpcioOutbufFlush_passed hflush
  | close =>
      obtain ⟨⟨done, o₁⟩, hclose, h⟩ := map_eq_ok.mp h
      cases h
      exact hpcioOutbufClose_passed hclose

/-- The run lemma: calls pass the bytes that they take. -/
theorem OutbufFile.run_passed {calls : List OutbufCall} {taken : List UInt8}
    (h : OutbufFile.run env fuel calls o = .ok (taken, o')) : Passed taken o o' := by
  induction calls generalizing o taken with
  | nil =>
      cases h
      exact .refl _
  | cons call calls ih =>
      obtain ⟨⟨first, o₁⟩, hstep, h⟩ := bind_eq_ok.mp h
      obtain ⟨⟨rest, o₂⟩, hrun, h⟩ := bind_eq_ok.mp h
      cases h
      exact (step_passed hstep).trans (ih hrun)

/-- **The stream of a buffer.** In every run of calls on a new buffer, whatever `write` and
`close` return, what is in the file and what is still held are together as long as the bytes
the calls took, but for `2 * a - u` bytes for every flush that fails after some `a` of its `u`
bytes; and they are exactly these bytes, in order, if no flush failed half-way other than with
as many bytes written as were left. -/
theorem outbuf_run_stream {bufStart : List UInt8} {fd : Int} {outbuf : HpcioOutbuf}
    {calls : List OutbufCall} {taken : List UInt8}
    (hattach : hpcioOutbufAttach fd bufStart = some outbuf)
    (hrun : OutbufFile.run env fuel calls (.attached outbuf) = .ok (taken, o')) :
    (o'.stream.length : Int) = taken.length + (o'.failures.map surplus).sum ∧
      ((∀ failure ∈ o'.failures, Harmless failure) → o'.file ++ o'.outbuf.held = taken) := by
  have hpassed := OutbufFile.run_passed hrun
  have hnil : outbuf.held = [] := by
    unfold hpcioOutbufAttach at hattach
    split at hattach
    · cases hattach
    · cases hattach
      rfl
  have hlength := hpassed.length
  simp only [OutbufFile.stream, OutbufFile.attached, hnil] at hlength
  refine ⟨by simpa [OutbufFile.stream] using hlength, fun hall => ?_⟩
  have hstream := hpassed.stream hall
  simpa [OutbufFile.stream, OutbufFile.attached, hnil] using hstream

/-- A disk that takes `room` bytes in the first call of `write`, and no more. -/
def OutbufEnv.fullAfter (room : Nat) : OutbufEnv :=
  ⟨fun _ => .opened 3, fun i => if i = 0 then .wrote room else .failed, true⟩

/-- A flush that writes three of four bytes keeps three, and the fifth one follows: seven bytes
in all. -/
theorem outbuf_run_stream_fullAfter :
    let o' : OutbufFile := ⟨⟨hpcioOutbufMagic, [4, 2, 3, 5], [], 3⟩, [1, 2, 3], 2, [(3, 4)]⟩
    OutbufFile.run (.fullAfter 3) 5 [.write [1, 2, 3, 4], .write [5]]
        (.attached ⟨hpcioOutbufMagic, [], [0, 0, 0, 0], 3⟩) = .ok ([1, 2, 3, 4, 5], o') ∧
      (o'.stream.length : Int) = 5 + (o'.failures.map surplus).sum := by
  intro o'
  have hrun : OutbufFile.run (.fullAfter 3) 5 [.write [1, 2, 3, 4], .write [5]]
      (.attached ⟨hpcioOutbufMagic, [], [0, 0, 0, 0], 3⟩) = .ok ([1, 2, 3, 4, 5], o') := rfl
  have hattach : hpcioOutbufAttach 3 [0, 0, 0, 0] =
      some ⟨hpcioOutbufMagic, [], [0, 0, 0, 0], 3⟩ := rfl
  exact ⟨hrun, (outbuf_run_stream hattach hrun).1⟩

/-! ### A disk that takes what it is given

No flush fails here, so a write takes its whole piece, if that fits the buffer at all. -/

/-- No call of `write` fails: it may take a part of the bytes only, or be interrupted. -/
def OutbufEnv.Healthy (env : OutbufEnv) : Prop := ∀ i, ¬(env.writes i).Fails

/-- Every call of `write` takes a byte at least. -/
def OutbufEnv.Progresses (env : OutbufEnv) : Prop :=
  ∀ i, ∃ room, 0 < room ∧ env.writes i = .wrote room

/-- If every call takes a byte, none fails. -/
theorem OutbufEnv.Progresses.healthy (h : env.Progresses) : env.Healthy := by
  intro i hfails
  obtain ⟨room, hpos, hwrite⟩ := h i
  rcases hfails with hfails | hfails
  · rw [hwrite] at hfails
    cases hfails
  · rw [hwrite] at hfails
    cases hfails
    exact absurd hpos (Nat.lt_irrefl 0)

/-- Without failures a flush writes everything. -/
theorem Flushed.healthy {done : Bool} (henv : env.Healthy) (h : Flushed env 0 o o' done) :
    done = true ∧ o'.file = o.stream ∧ o'.outbuf = o.outbuf.setInUse 0 := by
  cases h with
  | all file outbuf failures => exact ⟨rfl, by simpa [stream] using file, outbuf⟩
  | part n lower upper file outbuf failures fails =>
      obtain ⟨i, hi⟩ := fails
      exact absurd hi (henv i)

/-- With a call for each byte the loop ends. -/
theorem flushLoop_returns (henv : env.Progresses) {amtDone : Nat}
    (hfuel : o.outbuf.inUse - amtDone ≤ fuel) :
    ∃ done o', flushLoop env fuel amtDone o = .ok (done, o') := by
  induction fuel generalizing amtDone o with
  | zero => exact ⟨_, _, flushLoop_done (by omega)⟩
  | succ fuel ih =>
      rcases Nat.lt_or_ge amtDone o.outbuf.inUse with hlt | hge
      · obtain ⟨room, hroom, hwrite⟩ := henv o.writeCalls
        rw [flushLoop_wrote hlt hroom hwrite]
        refine ih ?_
        show o.outbuf.inUse - (amtDone + min room (o.outbuf.inUse - amtDone)) ≤ fuel
        omega
      · exact ⟨_, _, flushLoop_done hge⟩

section Healthy

variable {data : List UInt8}

/-- A piece that fits the buffer is copied in one round, behind what is held or, after a flush,
to the start. -/
theorem hpcioOutbufWrite_healthy {ret : Int} (henv : env.Healthy)
    (hmagic : o.outbuf.magic = hpcioOutbufMagic) (hsize : data.length ≤ o.outbuf.bufSize)
    (h : hpcioOutbufWrite env fuel data o = .ok (ret, o')) :
    ret = data.length ∧ o'.outbuf.magic = hpcioOutbufMagic ∧
      ((o'.file = o.file ∧ o'.outbuf.held = o.outbuf.held ++ data) ∨
        (o'.file = o.stream ∧ o'.outbuf.held = data)) := by
  rw [hpcioOutbufWrite, if_neg (not_not_intro hmagic)] at h
  obtain ⟨⟨n, o₁⟩, hloop, h⟩ := bind_eq_ok.mp h
  cases h
  cases hlen : data.length with
  | zero =>
      rw [copyLoop_done (by omega)] at hloop
      cases hloop
      exact ⟨rfl, hmagic, .inl ⟨rfl, by simp [List.length_eq_zero_iff.mp hlen]⟩⟩
  | succ rounds =>
      rw [hlen] at hloop
      have hrest (o₁ : OutbufFile) (hfits : RoomFor data o₁) : copyRest data 0 o₁ = data := by
        unfold RoomFor at hfits
        rw [copyRest, List.drop_zero, Nat.sub_zero, Nat.min_eq_left hfits, List.take_length]
      -- when there is room, the first round is the last one
      have hlast {o₁ : OutbufFile} (hfits : RoomFor data o₁)
          (hnext : copyLoop env fuel data rounds (0 + (copyRest data 0 o₁).length)
            { o₁ with outbuf := o₁.outbuf.copyIn (copyRest data 0 o₁) } = .ok (n, o')) :
          n = data.length ∧ o' = { o₁ with outbuf := o₁.outbuf.copyIn data } := by
        rw [hrest o₁ hfits, Nat.zero_add, copyLoop_done (Nat.le_refl _)] at hnext
        cases hnext
        exact ⟨rfl, rfl⟩
      obtain ⟨o₁, hflush, hcopy⟩ := copyLoop_round (by omega) hloop
      rcases hflush with ⟨hfits, rfl⟩ | ⟨hnot, done, hflush⟩
      · rcases hcopy with ⟨hnot, -⟩ | hnext
        · exact absurd hfits hnot
        · obtain ⟨rfl, rfl⟩ := hlast hfits hnext
          exact ⟨by rw [hlen], hmagic, .inl ⟨rfl, rfl⟩⟩
      · obtain ⟨-, hfile, houtbuf⟩ := hflush.healthy henv
        have hzero : o₁.outbuf.inUse = 0 := by simp [houtbuf, inUse]
        have hsame : o₁.outbuf.bufSize = o.outbuf.bufSize := by rw [houtbuf, bufSize_setInUse]
        rcases hcopy with ⟨-, hfull, -⟩ | hnext
        · omega
        · have hfits : RoomFor data o₁ := by
            unfold RoomFor
            omega
          obtain ⟨rfl, rfl⟩ := hlast hfits hnext
          refine ⟨by rw [hlen], ?_, .inr ⟨hfile, ?_⟩⟩
          · simpa [houtbuf, copyIn, setInUse] using hmagic
          · simp [houtbuf]

/-- Writing nothing changes nothing. -/
theorem hpcioOutbufWrite_nil (hmagic : o.outbuf.magic = hpcioOutbufMagic) :
    hpcioOutbufWrite env fuel [] o = .ok (0, o) := by
  rw [hpcioOutbufWrite, if_neg (not_not_intro hmagic)]
  exact bind_eq_ok.mpr ⟨(0, o), copyLoop_done (Nat.le_refl _), rfl⟩

/-- With enough fuel for a flush, a piece that fits the buffer is written. -/
theorem hpcioOutbufWrite_returns (henv : env.Progresses) (hsize : data.length ≤ o.outbuf.bufSize)
    (hfuel : o.outbuf.inUse ≤ fuel) :
    ∃ ret o', hpcioOutbufWrite env fuel data o = .ok (ret, o') := by
  unfold hpcioOutbufWrite
  split
  · exact ⟨-1, o, rfl⟩
  · suffices ∃ n o', copyLoop env fuel data data.length 0 o = .ok (n, o') by
      obtain ⟨n, o', hloop⟩ := this
      exact ⟨n, o', bind_eq_ok.mpr ⟨_, hloop, rfl⟩⟩
    cases hlen : data.length with
    | zero => exact ⟨_, _, copyLoop_done (by omega)⟩
    | succ rounds =>
        have hlast (o₁ : OutbufFile) (hfits : RoomFor data o₁) :
            ∃ n o', copyLoop env fuel data rounds (0 + (copyRest data 0 o₁).length)
              { o₁ with outbuf := o₁.outbuf.copyIn (copyRest data 0 o₁) } = .ok (n, o') := by
          unfold RoomFor at hfits
          exact ⟨_, _, copyLoop_done (by rw [length_copyRest]; omega)⟩
        by_cases hfits : RoomFor data o
        · rw [copyLoop_fits (by omega) hfits]
          exact hlast o hfits
        · obtain ⟨done, o₁, hflush⟩ :=
            flushLoop_returns henv (show o.outbuf.inUse - 0 ≤ fuel from hfuel)
          obtain ⟨-, -, houtbuf⟩ := (outbufFlushBuffer_flushed hflush).healthy henv.healthy
          have hzero : o₁.outbuf.inUse = 0 := by simp [houtbuf, inUse]
          have hsame : o₁.outbuf.bufSize = o.outbuf.bufSize := by rw [houtbuf, bufSize_setInUse]
          rw [copyLoop_flush (by omega) hfits hflush, if_neg (by omega)]
          exact hlast o₁ (by unfold RoomFor; omega)

end Healthy

/-! ### A disk that takes nothing

Every flush fails at once and leaves the buffer as it is, so a write copies until the buffer is
full. -/

/-- Every call of `write` fails. -/
def OutbufEnv.Dead (env : OutbufEnv) : Prop := ∀ i, (env.writes i).Fails

/-- A flush leaves everything in the buffer. -/
theorem outbufFlushBuffer_dead (fuel : Nat) (henv : env.Dead) : ∃ done o₁,
    outbufFlushBuffer env (fuel + 1) o = .ok (done, o₁) ∧ o₁.outbuf = o.outbuf ∧
      o₁.file = o.file := by
  unfold outbufFlushBuffer
  rcases Nat.eq_zero_or_pos o.outbuf.inUse with hzero | hpos
  · refine ⟨_, _, flushLoop_done (by omega), ?_, rfl⟩
    have hnil : o.outbuf.held = [] := List.length_eq_zero_iff.mp hzero
    show o.outbuf.setInUse 0 = o.outbuf
    simp [setInUse, ← hnil]
  · exact ⟨_, _, flushLoop_fails hpos (henv _), by simp [failFlush, called], rfl⟩

/-- The loop copies until the buffer is full. -/
theorem copyLoop_dead (fuel : Nat) (henv : env.Dead) {data : List UInt8} {rounds amtDone : Nat}
    (hamt : amtDone ≤ data.length) (hrounds : data.length - amtDone ≤ rounds) :
    ∃ n o', copyLoop env (fuel + 1) data rounds amtDone o = .ok (n, o') ∧
      n = min data.length (amtDone + (o.outbuf.bufSize - o.outbuf.inUse)) ∧
      o'.file = o.file ∧
      o'.outbuf = o.outbuf.copyIn ((data.drop amtDone).take (n - amtDone)) := by
  induction rounds generalizing amtDone o with
  | zero => exact ⟨_, _, copyLoop_done (by omega), by omega, rfl, by simp⟩
  | succ rounds ih =>
      rcases Nat.lt_or_eq_of_le hamt with hlt | rfl
      · by_cases hfits : RoomFor data o
        · have hlast : amtDone + (copyRest data amtDone o).length = data.length := by
            unfold RoomFor at hfits
            rw [length_copyRest]
            omega
          rw [copyLoop_fits hlt hfits, hlast, copyLoop_done (Nat.le_refl _)]
          unfold RoomFor at hfits
          refine ⟨_, _, rfl, by omega, rfl, ?_⟩
          rw [copyRest, Nat.min_eq_left (by omega)]
        · obtain ⟨done, o₁, hflush, houtbuf, hfile⟩ := outbufFlushBuffer_dead fuel henv
          rw [copyLoop_flush hlt hfits hflush]
          -- a full buffer ends the write; otherwise the rest is tried again
          by_cases hfull : o₁.outbuf.inUse = o₁.outbuf.bufSize
          · rw [if_pos hfull]
            refine ⟨_, _, rfl, ?_, hfile, by simp [houtbuf]⟩
            rw [houtbuf] at hfull
            omega
          · rw [if_neg hfull]
            have hlen : (copyRest data amtDone o₁).length =
                min (data.length - amtDone) (o.outbuf.bufSize - o.outbuf.inUse) := by
              rw [length_copyRest, houtbuf]
            have hpre := copyRest_prefix data amtDone o₁
            have hsize : (o₁.outbuf.copyIn (copyRest data amtDone o₁)).bufSize =
                o.outbuf.bufSize := by
              rw [houtbuf, bufSize_copyIn (by omega)]
            have huse : (o₁.outbuf.copyIn (copyRest data amtDone o₁)).inUse =
                o.outbuf.inUse + (copyRest data amtDone o₁).length := by rw [inUse_copyIn, houtbuf]
            have hamt' : amtDone + (copyRest data amtDone o₁).length ≤ data.length := by omega
            obtain ⟨n, o', hloop, hn, hfile', houtbuf'⟩ :=
              ih (o := { o₁ with outbuf := o₁.outbuf.copyIn (copyRest data amtDone o₁) }) hamt'
                (by rw [houtbuf] at hfull; unfold bufSize inUse at hfull hlen; omega)
            simp only [hsize, huse] at hn
            refine ⟨n, o', hloop, by omega, hfile'.trans hfile, ?_⟩
            have hsplit : n - amtDone = (copyRest data amtDone o₁).length +
                (n - (amtDone + (copyRest data amtDone o₁).length)) := by omega
            rw [houtbuf', copyIn_copyIn, houtbuf, hsplit, List.take_add, List.drop_drop,
              ← List.prefix_iff_eq_take.mp hpre]
      · exact ⟨_, _, copyLoop_done (Nat.le_refl _), by omega, rfl, by simp⟩

/-- A write takes what there is room for, and nothing reaches the file. -/
theorem hpcioOutbufWrite_dead (fuel : Nat) (henv : env.Dead)
    (hmagic : o.outbuf.magic = hpcioOutbufMagic) (data : List UInt8) :
    ∃ (n : Nat) (o' : OutbufFile), hpcioOutbufWrite env (fuel + 1) data o = .ok (n, o') ∧
      n = min data.length (o.outbuf.bufSize - o.outbuf.inUse) ∧ o'.file = o.file ∧
      o'.outbuf = o.outbuf.copyIn (data.take n) := by
  obtain ⟨n, o', hloop, hn, hfile, houtbuf⟩ :=
    copyLoop_dead (o := o) fuel henv (Nat.zero_le data.length) (Nat.le_refl _)
  refine ⟨n, o', ?_, by omega, hfile, by simpa using houtbuf⟩
  rw [hpcioOutbufWrite, if_neg (not_not_intro hmagic)]
  exact bind_eq_ok.mpr ⟨_, hloop, rfl⟩

end DroidPerf
