import DroidPerf.BufferedOutput
import DroidPerf.OutBufSound
import DroidPerf.NamedOutputSound

/-!
# DroidPerf.BufferedOutputSound

An output stream on top of its buffer does what a stream does that is only given the results of
its writes (`NamedOutput`), and the file gets what the stream hands over.

`Matches` ties one operation to that of the stream without a buffer: there are results of
`hpcio_outbuf_write` under which the latter does the same. `Tracks` ties the bytes handed over
to the stream of the buffer. Both go through each operation and each run of calls
(`buffered_refines_named`).

What becomes of the bytes is then settled for two kinds of disk. If each `write` takes at least
a byte, the invariant `Holds` says which pieces are in the file and which are in the buffer,
and the text of the file is known at the end (`buffered_file_text`). If `write` always fails,
`Filled` says that the bytes stay in the buffer, until there is no more room for them
(`buffered_dead_disk`).
-/

namespace DroidPerf

open HpcioOutbuf OutbufFile
open NamedOutput (mutf8 mutf8_append length_mutf8)
open Text (byteSize)

namespace BufferedOutput

variable {env : OutbufEnv} {flushes fuel : Nat} {o o' : BufferedOutput}

/-! ### The stream without a buffer

The results of a run are a list, one for each call. They are numbered from the first call of
the stream, so that the lists of two runs can be put one after the other. -/

/-- The results of the calls from number `start` on. -/
def Answers (room : Nat → Nat) (start : Nat) (rets : List Nat) : Prop :=
  ∀ i (hi : i < rets.length), room (start + i) = rets[i]

/-- Results of a run are those of its parts. -/
theorem Answers.append {room : Nat → Nat} {start : Nat} {rets rets' : List Nat}
    (h : Answers room start (rets ++ rets')) :
    Answers room start rets ∧ Answers room (start + rets.length) rets' := by
  constructor
  · intro i hi
    rw [h i (by rw [List.length_append]; omega), List.getElem_append_left hi]
  · intro i hi
    rw [Nat.add_assoc, h (rets.length + i) (by rw [List.length_append]; omega),
      List.getElem_append_right (by omega)]
    simp

/-- Results for the calls between two states under which something holds of the stream without
a buffer. -/
def Matches (env : OutbufEnv) (o o' : BufferedOutput) (P : OutputEnv → Prop) : Prop :=
  ∃ rets : List Nat, o'.named.writeCalls = o.named.writeCalls + rets.length ∧
    ∀ room, Answers room o.named.writeCalls rets → P ⟨env.opens, room⟩

/-- An operation that calls nothing matches under any results. -/
theorem Matches.of_forall {P : OutputEnv → Prop}
    (hcalls : o'.named.writeCalls = o.named.writeCalls) (h : ∀ room, P ⟨env.opens, room⟩) :
    Matches env o o' P :=
  ⟨[], hcalls, fun room _ => h room⟩

/-- If two operations match their counterparts, so do both in turn. -/
theorem Matches.trans {P Q R : OutputEnv → Prop} {o₁ : BufferedOutput} (h : Matches env o o₁ P)
    (h' : Matches env o₁ o' Q) (hR : ∀ env', P env' → Q env' → R env') : Matches env o o' R := by
  obtain ⟨rets, hcalls, hP⟩ := h
  obtain ⟨rets', hcalls', hQ⟩ := h'
  refine ⟨rets ++ rets', by rw [hcalls', hcalls, List.length_append, Nat.add_assoc], ?_⟩
  intro room hroom
  obtain ⟨hfirst, hlater⟩ := hroom.append
  exact hR _ (hP room hfirst) (hQ room (hcalls ▸ hlater))

section Send

variable {buf : List UInt8} {dataSize : Int} {sentSize : Nat}

/-- When all bytes are sent, the loop ends. -/
theorem sendLoop_done (h : dataSize ≤ sentSize) :
    sendLoop env flushes buf dataSize fuel sentSize o = .ok o := by
  rw [sendLoop.eq_def]
  exact if_neg (Int.not_lt.mpr h)

/-- Without a round left, the loop is cut off. -/
theorem sendLoop_zero (h : (sentSize : Int) < dataSize) :
    sendLoop env flushes buf dataSize 0 sentSize o = .error .outOfFuel := by
  rw [sendLoop, if_pos h]

/-- What the next call of `hpcio_outbuf_write` is given. -/
def nextData (buf : List UInt8) (dataSize : Int) (sentSize : Nat) : List UInt8 :=
  (buf.drop sentSize).take (dataSize.toNat - sentSize)

/-- The stream after a call that takes `size` bytes. -/
def handOver (buf : List UInt8) (sentSize size : Nat) (buffer : OutbufFile) (o : BufferedOutput) :
    BufferedOutput :=
  { o with named := o.named.handOver buf sentSize size, buffer := buffer }

/-- A round hands over what the call takes. -/
theorem sendLoop_succ (h : (sentSize : Int) < dataSize) {size : Nat} {buffer : OutbufFile}
    (hwrite : hpcioOutbufWrite env flushes (nextData buf dataSize sentSize) o.buffer =
      .ok ((size : Nat), buffer)) :
    sendLoop env flushes buf dataSize (fuel + 1) sentSize o =
      sendLoop env flushes buf dataSize fuel (sentSize + size)
        (o.handOver buf sentSize size buffer) := by
  unfold nextData at hwrite
  rw [sendLoop, if_pos h]
  simp only [hwrite, ok_bind, if_pos (Int.natCast_nonneg size)]
  rfl

/-- A round of the loop: the call takes a part of what it is given. -/
theorem sendLoop_round (h : (sentSize : Int) < dataSize)
    (hok : sendLoop env flushes buf dataSize (fuel + 1) sentSize o = .ok o') :
    ∃ size buffer, hpcioOutbufWrite env flushes (nextData buf dataSize sentSize) o.buffer =
        .ok ((size : Nat), buffer) ∧
      size ≤ (nextData buf dataSize sentSize).length ∧
      sendLoop env flushes buf dataSize fuel (sentSize + size)
        (o.handOver buf sentSize size buffer) = .ok o' := by
  rw [sendLoop, if_pos h] at hok
  obtain ⟨⟨ret, buffer⟩, hwrite, hok⟩ := bind_eq_ok.mp hok
  dsimp only at hok
  -- the result is the number of bytes taken, which is not below zero
  split at hok
  · rename_i hret
    obtain ⟨size, rfl⟩ := Int.eq_ofNat_of_zero_le hret
    have hle := (hpcioOutbufWrite_passed hwrite).1
    exact ⟨size, buffer, hwrite, by unfold nextData; omega, hok⟩
  · cases hok

/-- With the number of bytes that the buffer took in each round as the results, the two loops
go the same way. -/
theorem sendLoop_matches (h : sendLoop env flushes buf dataSize fuel sentSize o = .ok o') :
    Matches env o o' fun env' =>
      NamedOutput.sendLoop env' buf dataSize fuel sentSize o.named = .ok o'.named := by
  induction fuel generalizing sentSize o with
  | zero =>
      rcases Int.lt_or_le sentSize dataSize with hlt | hle
      · rw [sendLoop_zero hlt] at h
        cases h
      · rw [sendLoop_done hle] at h
        cases h
        exact .of_forall rfl fun room => NamedOutput.sendLoop_done hle
  | succ fuel ih =>
      rcases Int.lt_or_le sentSize dataSize with hlt | hle
      · obtain ⟨size, buffer, -, hsize, hrest⟩ := sendLoop_round hlt h
        -- the result of this call, and those of the later ones
        obtain ⟨rets, hcalls, hloop⟩ := ih hrest
        refine ⟨size :: rets, ?_, fun room hroom => ?_⟩
        · rw [hcalls, List.length_cons]
          simp only [handOver, NamedOutput.handOver]
          omega
        · have hsize' : size ≤ dataSize.toNat - sentSize := by
            have hlen : (nextData buf dataSize sentSize).length ≤ dataSize.toNat - sentSize := by
              simp [nextData]
            omega
          have hret : NamedOutput.retSize ⟨env.opens, room⟩ o.named dataSize sentSize = size := by
            have hfirst : room o.named.writeCalls = size := by simpa using hroom 0 (Nat.succ_pos _)
            show min (room o.named.writeCalls) (dataSize.toNat - sentSize) = size
            rw [hfirst, Nat.min_eq_left hsize']
          show NamedOutput.sendLoop _ buf dataSize (fuel + 1) sentSize o.named = .ok o'.named
          rw [NamedOutput.sendLoop_succ hlt, hret]
          exact hloop room (Answers.append (show Answers room _ ([size] ++ rets) from hroom)).2
      · rw [sendLoop_done hle] at h
        cases h
        exact .of_forall rfl fun room => NamedOutput.sendLoop_done hle

/-- What is left of `writeb` when the file is open: the loop, and the lock is released. -/
theorem send_eq_ok {ret : Int} : o.send env flushes fuel buf = .ok (ret, o') ↔
    ret = toInt32 buf.length ∧
      ∃ o₁, sendLoop env flushes buf (toInt32 buf.length) fuel 0 o = .ok o₁ ∧
        o' = { o₁ with named := { o₁.named with locked := false } } := by
  constructor
  · intro h
    obtain ⟨o₁, hloop, h⟩ := bind_eq_ok.mp h
    cases h
    exact ⟨rfl, o₁, hloop, rfl⟩
  · rintro ⟨rfl, o₁, hloop, rfl⟩
    exact bind_eq_ok.mpr ⟨o₁, hloop, rfl⟩

/-- Sending with the buffer and without it. -/
theorem send_matches {ret : Int} (h : o.send env flushes fuel buf = .ok (ret, o')) :
    Matches env o o' fun env' => o.named.send env' fuel buf = .ok (ret, o'.named) := by
  obtain ⟨rfl, o₁, hloop, rfl⟩ := send_eq_ok.mp h
  obtain ⟨rets, hcalls, hsend⟩ := sendLoop_matches hloop
  exact ⟨rets, hcalls, fun room hroom =>
    NamedOutput.send_eq_ok.mpr ⟨rfl, o₁.named, hsend room hroom, rfl⟩⟩

end Send

/-! ### Opening the file

The calls of `open` are those of the stream without a buffer. Attaching the buffer cannot fail,
since the memory for it is not empty. -/

/-- Opening a file has nothing to do with what is written. -/
theorem openLoop_room (opens : Nat → OpenOutcome) (room room' : Nat → Nat) (fuel : Nat)
    (named : NamedOutput) :
    NamedOutput.openLoop ⟨opens, room⟩ fuel named =
      NamedOutput.openLoop ⟨opens, room'⟩ fuel named := by
  induction fuel generalizing named with
  | zero => rfl
  | succ fuel ih => simp only [NamedOutput.openLoop, ih]

/-- `_openFile` does not depend on how much the buffer takes. -/
theorem openFile_room (opens : Nat → OpenOutcome) (room room' : Nat → Nat) (named : NamedOutput) :
    named.openFile ⟨opens, room⟩ = named.openFile ⟨opens, room'⟩ := by
  unfold NamedOutput.openFile
  rw [openLoop_room opens room room']

/-- A stream whose file has just been opened. -/
def attach (named : NamedOutput) (o : BufferedOutput) : BufferedOutput :=
  { o with named := named, buffer := .attached ⟨hpcioOutbufMagic, [], o.printBuffer, named.fd⟩ }

/-- What `_openFile` does for a stream without a file, with the buffer and without it. -/
theorem openFile_spec (env : OutbufEnv) (hprint : o.printBuffer ≠ []) (hfd : o.named.fd < 0) :
    (∃ k fd : Nat, o.openFile env = .ok (true, o.attach (o.named.tried k fd)) ∧
        ∀ room, o.named.openFile ⟨env.opens, room⟩ = .ok (true, o.named.tried k fd)) ∨
      ∃ k, o.openFile env = .ok (false, { o with named := o.named.tried k o.named.fd }) ∧
        (∀ room, o.named.openFile ⟨env.opens, room⟩ = .ok (false, o.named.tried k o.named.fd)) ∧
        ¬NamedOutput.WillOpen ⟨env.opens, fun _ => 0⟩ o.named := by
  have hroom (room : Nat → Nat) := openFile_room env.opens room (fun _ => 0) o.named
  have hlen : o.printBuffer.length ≠ 0 := fun h => hprint (List.length_eq_zero_iff.mp h)
  rw [openFile, if_neg (Int.not_le.mpr hfd)]
  rcases NamedOutput.openFile_spec ⟨env.opens, fun _ => 0⟩ hfd with
    ⟨k, fd, hopen, -⟩ | ⟨k, hopen, h⟩
  · refine .inl ⟨k, fd, ?_, fun room => (hroom room).trans hopen⟩
    have hattach : hpcioOutbufAttach (fd : Int) o.printBuffer =
        some ⟨hpcioOutbufMagic, [], o.printBuffer, fd⟩ := by
      rw [hpcioOutbufAttach, if_neg (by omega)]
    simp only [hopen, ok_bind, if_true, NamedOutput.tried, hattach]
    rfl
  · refine .inr ⟨k, ?_, fun room => (hroom room).trans hopen, h.not_willOpen⟩
    simp only [hopen, ok_bind]
    rfl

/-! ### Writing

The case analysis of `writeb` is made once, for both streams together; what is proved of
`writeb` below goes by these cases. -/

/-- The ways through `writeb`, with the buffer and without it: without a name, without a file,
with a new file and with one that is open. -/
inductive WritebCase (env : OutbufEnv) (o : BufferedOutput) : Prop
  | returns (named : NamedOutput) (closed : o.named.fd < 0)
      (why : o.named.fileName = [] ∨ ¬NamedOutput.WillOpen ⟨env.opens, fun _ => 0⟩ o.named)
      (fd : named.fd = o.named.fd)
      (taken : named.taken = o.named.taken) (calls : named.writeCalls = o.named.writeCalls)
      (eq : ∀ flushes fuel buf,
        o.writeb env flushes fuel buf = .ok (0, { o with named := named }))
      (eqNamed : ∀ room fuel buf,
        o.named.writeb ⟨env.opens, room⟩ fuel buf = .ok (0, named))
  | opens (k fd : Nat) (closed : o.named.fd < 0)
      (eq : ∀ flushes fuel buf, o.writeb env flushes fuel buf =
        (o.attach { o.named.tried k fd with locked := true }).send env flushes fuel buf)
      (eqNamed : ∀ room fuel buf, o.named.writeb ⟨env.opens, room⟩ fuel buf =
        ({ o.named.tried k fd with locked := true } : NamedOutput).send ⟨env.opens, room⟩ fuel buf)
  | isOpen (opened : 0 ≤ o.named.fd)
      (eq : ∀ flushes fuel buf, o.writeb env flushes fuel buf =
        ({ o with named := { o.named with locked := true } } : BufferedOutput).send
          env flushes fuel buf)
      (eqNamed : ∀ room fuel buf, o.named.writeb ⟨env.opens, room⟩ fuel buf =
        ({ o.named with locked := true } : NamedOutput).send ⟨env.opens, room⟩ fuel buf)

/-- A write finds no name, no file, a file to be opened, or an open one. -/
theorem writeb_cases (env : OutbufEnv) (hprint : o.printBuffer ≠ []) : WritebCase env o := by
  rcases Int.lt_or_le o.named.fd 0 with hfd | hfd
  · by_cases hname : o.named.fileName = []
    · refine .returns { o.named with locked := false } hfd (.inl hname) rfl rfl rfl
        (fun flushes fuel buf => ?_) fun room fuel buf => ?_
      · simp [writeb, hfd, hname]
      · simp [NamedOutput.writeb, hfd, hname]
    · have hlength : o.named.fileName.length ≠ 0 := fun h => hname (List.length_eq_zero_iff.mp h)
      let locked : BufferedOutput := { o with named := { o.named with locked := true } }
      rcases openFile_spec (o := locked) env hprint hfd with
        ⟨k, fd, hopen, hnamed⟩ | ⟨k, hopen, hnamed, hnot⟩
      · refine .opens k fd hfd (fun flushes fuel buf => ?_) fun room fuel buf => ?_
        · simp only [writeb, if_pos hfd, if_neg hlength]
          rw [show openFile env _ = _ from hopen]
          rfl
        · simp only [NamedOutput.writeb, if_pos hfd, if_neg hlength]
          rw [show NamedOutput.openFile _ _ = _ from hnamed room]
          rfl
      · refine .returns { o.named.tried k o.named.fd with locked := false } hfd (.inr hnot) rfl rfl
          rfl (fun flushes fuel buf => ?_) fun room fuel buf => ?_
        · simp only [writeb, if_pos hfd, if_neg hlength]
          rw [show openFile env _ = _ from hopen]
          rfl
        · simp only [NamedOutput.writeb, if_pos hfd, if_neg hlength]
          rw [show NamedOutput.openFile _ _ = _ from hnamed room]
          rfl
  · refine .isOpen hfd (fun flushes fuel buf => ?_) fun room fuel buf => ?_
    · simp only [writeb, if_neg (Int.not_lt.mpr hfd)]
    · simp only [NamedOutput.writeb, if_neg (Int.not_lt.mpr hfd)]

/-- Two states of a stream that count the same calls. -/
theorem Matches.of_start {P : OutputEnv → Prop} {o₁ : BufferedOutput} (h : Matches env o₁ o' P)
    (hcalls : o₁.named.writeCalls = o.named.writeCalls) : Matches env o o' P := by
  obtain ⟨rets, hend, hP⟩ := h
  exact ⟨rets, by rw [hend, hcalls], fun room hroom => hP room (hcalls ▸ hroom)⟩

/-- What follows from what matches, matches. -/
theorem Matches.imp {P Q : OutputEnv → Prop} (h : Matches env o o' P)
    (hPQ : ∀ room, P ⟨env.opens, room⟩ → Q ⟨env.opens, room⟩) : Matches env o o' Q := by
  obtain ⟨rets, hend, hP⟩ := h
  exact ⟨rets, hend, fun room hroom => hPQ room (hP room hroom)⟩

/-- A write with the buffer and without it. -/
theorem writeb_matches {buf : List UInt8} {ret : Int} (hprint : o.printBuffer ≠ [])
    (h : o.writeb env flushes fuel buf = .ok (ret, o')) :
    Matches env o o' fun env' => o.named.writeb env' fuel buf = .ok (ret, o'.named) := by
  cases writeb_cases env hprint with
  | returns named _ _ _ _ calls eq eqNamed =>
      rw [eq] at h
      cases h
      exact .of_forall calls fun room => eqNamed room fuel buf
  | opens k fd _ eq eqNamed =>
      rw [eq] at h
      have hmatch := send_matches h
      refine (hmatch.imp fun room hsend => ?_).of_start rfl
      rw [eqNamed]
      exact hsend
  | isOpen _ eq eqNamed =>
      rw [eq] at h
      have hmatch := send_matches h
      refine (hmatch.imp fun room hsend => ?_).of_start rfl
      rw [eqNamed]
      exact hsend

/-- Setting the name leaves the file, what was taken and the number of calls as they are. -/
theorem setFileName_frame {fileName : List UInt8} {set : Bool} {named named' : NamedOutput}
    (h : named.setFileName fileName = .ok (set, named')) :
    named'.fd = named.fd ∧ named'.taken = named.taken ∧ named'.writeCalls = named.writeCalls := by
  unfold NamedOutput.setFileName at h
  split_ifs at h with hset hlong
  · cases h
    exact ⟨rfl, rfl, rfl⟩
  · cases h
    exact ⟨rfl, rfl, rfl⟩
  · rw [NamedOutput.storeName, if_pos (by omega)] at h
    cases h
    exact ⟨rfl, rfl, rfl⟩

/-- A call sets the name, or it is a write; with the buffer and without it. -/
theorem step_cases {call : OutputCall} (h : o.step env flushes fuel call = .ok o') :
    (∃ fileName set named, o.named.setFileName fileName = .ok (set, named) ∧
        o' = { o with named := named } ∧ ∀ env', o.named.step env' fuel call = .ok named) ∨
      ∃ buf ret, o.writeb env flushes fuel buf = .ok (ret, o') ∧
        ∀ env', o.named.step env' fuel call = (o.named.writeb env' fuel buf).map Prod.snd := by
  cases call with
  | setFileName fileName =>
      obtain ⟨⟨set, o₁⟩, hset, hsnd⟩ := map_eq_ok.mp h
      obtain ⟨⟨set', named⟩, hnamed, heq⟩ := map_eq_ok.mp hset
      cases heq
      cases hsnd
      exact .inl ⟨fileName, set, named, hnamed, rfl, fun _ => map_eq_ok.mpr ⟨_, hnamed, rfl⟩⟩
  | writeb buf =>
      obtain ⟨⟨ret, o₁⟩, hwrite, hsnd⟩ := map_eq_ok.mp h
      cases hsnd
      exact .inr ⟨buf, ret, hwrite, fun _ => rfl⟩
  | writef text =>
      obtain ⟨⟨ret, o₁⟩, hwrite, hsnd⟩ := map_eq_ok.mp h
      cases hsnd
      unfold writef at hwrite
      split at hwrite
      · rename_i hfits
        refine .inr ⟨text, ret, hwrite, fun env' => ?_⟩
        rw [NamedOutput.step, NamedOutput.writef_eq hfits]
      · cases hwrite

/-- A call with the buffer and without it. -/
theorem step_matches {call : OutputCall} (hprint : o.printBuffer ≠ [])
    (h : o.step env flushes fuel call = .ok o') :
    Matches env o o' fun env' => o.named.step env' fuel call = .ok o'.named := by
  rcases step_cases h with ⟨fileName, set, named, hset, rfl, hnamed⟩ | ⟨buf, ret, hwrite, hnamed⟩
  · exact .of_forall (setFileName_frame hset).2.2 fun room => hnamed _
  · refine (writeb_matches hprint hwrite).imp fun room hok => ?_
    rw [hnamed, hok]
    rfl

/-! ### What is handed over

`Passed` is the relation of the buffer's own module between a buffer before and after some
bytes. The stream is related by it to the moment at which its file was opened. -/

/-- The bytes handed over are those of the buffer's stream, and the memory is that of the
object. -/
structure Tracks (o : BufferedOutput) : Prop where
  closed : o.named.fd < 0 → o.named.taken = []
  opened : 0 ≤ o.named.fd → ∃ fd, Passed o.named.taken
    (.attached ⟨hpcioOutbufMagic, [], o.printBuffer, fd⟩) o.buffer

/-- A new stream has no file, and handed over nothing. -/
theorem tracks_new (printBuffer : List UInt8) : Tracks (new printBuffer) where
  closed _ := rfl
  opened h := absurd h (Int.not_le.mpr (Int.negSucc_lt_zero 0))

section Tracks

variable {buf : List UInt8} {dataSize : Int} {sentSize : Nat}

/-- The loop appends to what was taken the bytes that the buffer got. -/
theorem sendLoop_frame (h : sendLoop env flushes buf dataSize fuel sentSize o = .ok o') :
    o'.named.fd = o.named.fd ∧ o'.printBuffer = o.printBuffer ∧
      ∃ data, o'.named.taken = o.named.taken ++ data ∧ Passed data o.buffer o'.buffer := by
  induction fuel generalizing sentSize o with
  | zero =>
      rcases Int.lt_or_le sentSize dataSize with hlt | hle
      · rw [sendLoop_zero hlt] at h
        cases h
      · rw [sendLoop_done hle] at h
        cases h
        exact ⟨rfl, rfl, [], by simp, .refl _⟩
  | succ fuel ih =>
      rcases Int.lt_or_le sentSize dataSize with hlt | hle
      · obtain ⟨size, buffer, hwrite, hsize, hrest⟩ := sendLoop_round hlt h
        obtain ⟨hfd, hprint, data, htaken, hpassed⟩ := ih hrest
        have hfirst := (hpcioOutbufWrite_passed hwrite).2
        rw [Int.toNat_natCast] at hfirst
        have hsame : (nextData buf dataSize sentSize).take size =
            (buf.drop sentSize).take size := by
          have hle : size ≤ dataSize.toNat - sentSize := by
            have hlen : (nextData buf dataSize sentSize).length ≤ dataSize.toNat - sentSize := by
              simp [nextData]
            omega
          rw [nextData, List.take_take, Nat.min_eq_left hle]
        refine ⟨hfd, hprint, _, ?_, hfirst.trans hpassed⟩
        rw [htaken, hsame, ← List.append_assoc]
        rfl
      · rw [sendLoop_done hle] at h
        cases h
        exact ⟨rfl, rfl, [], by simp, .refl _⟩

/-- Sending keeps the two in step. -/
theorem Tracks.send {ret : Int} (ho : Tracks o) (hfd : 0 ≤ o.named.fd)
    (h : o.send env flushes fuel buf = .ok (ret, o')) :
    Tracks o' ∧ o'.printBuffer = o.printBuffer := by
  obtain ⟨-, o₁, hloop, rfl⟩ := send_eq_ok.mp h
  obtain ⟨hfd', hprint, data, htaken, hpassed⟩ := sendLoop_frame hloop
  obtain ⟨fd, htracks⟩ := ho.opened hfd
  refine ⟨⟨fun hneg => ?_, fun _ => ⟨fd, ?_⟩⟩, hprint⟩
  · rw [show o₁.named.fd = o.named.fd from hfd'] at hneg
    omega
  · show Passed o₁.named.taken (.attached ⟨_, _, o₁.printBuffer, fd⟩) o₁.buffer
    rw [htaken, hprint]
    exact htracks.trans hpassed

/-- A write keeps the two in step. -/
theorem Tracks.writeb {ret : Int} (ho : Tracks o) (hprint : o.printBuffer ≠ [])
    (h : o.writeb env flushes fuel buf = .ok (ret, o')) :
    Tracks o' ∧ o'.printBuffer = o.printBuffer := by
  cases writeb_cases env hprint with
  | returns named closed _ fd taken _ eq _ =>
      rw [eq] at h
      cases h
      refine ⟨⟨fun _ => ?_, fun hpos => ?_⟩, rfl⟩
      · rw [show named.taken = _ from taken, ho.closed closed]
      · have hneg : named.fd < 0 := fd ▸ closed
        exact absurd hpos (Int.not_le.mpr hneg)
  | opens k fd closed eq _ =>
      rw [eq] at h
      refine Tracks.send (o := o.attach { o.named.tried k fd with locked := true }) ?_ ?_ h
      · refine ⟨fun hneg => ?_, fun _ => ⟨fd, ?_⟩⟩
        · -- the file has just been opened
          exact absurd hneg (Int.not_lt.mpr (Int.natCast_nonneg fd))
        · show Passed o.named.taken _ _
          rw [ho.closed closed]
          exact .refl _
      · exact Int.natCast_nonneg fd
  | isOpen opened eq _ =>
      rw [eq] at h
      exact Tracks.send (o := { o with named := { o.named with locked := true } })
        ⟨ho.closed, ho.opened⟩ opened h

/-- Every call keeps the two in step. -/
theorem Tracks.step {call : OutputCall} (ho : Tracks o) (hprint : o.printBuffer ≠ [])
    (h : o.step env flushes fuel call = .ok o') : Tracks o' ∧ o'.printBuffer = o.printBuffer := by
  rcases step_cases h with ⟨fileName, set, named, hset, rfl, -⟩ | ⟨buf, ret, hwrite, -⟩
  · obtain ⟨hfd, htaken, -⟩ := setFileName_frame hset
    refine ⟨⟨fun hneg => ?_, fun hpos => ?_⟩, rfl⟩
    · exact htaken.trans (ho.closed (hfd ▸ hneg))
    · obtain ⟨fd, htracks⟩ := ho.opened (hfd ▸ hpos)
      refine ⟨fd, ?_⟩
      show Passed named.taken _ _
      rw [htaken]
      exact htracks
  · exact ho.writeb hprint hwrite

end Tracks

/-! ### Runs

The two relations together over a run; what the file holds follows from `Tracks` at its end. -/

/-- A run is a call and the rest of the run. -/
theorem run_cons (call : OutputCall) (calls : List OutputCall) :
    run env flushes fuel (call :: calls) o =
      o.step env flushes fuel call >>= fun o => run env flushes fuel calls o := by
  unfold run
  rw [List.foldlM_cons]

/-- The run lemma: in every run the two streams go along, and the buffer gets what is handed
over. -/
theorem run_tracks {calls : List OutputCall} (ho : Tracks o) (hprint : o.printBuffer ≠ [])
    (h : run env flushes fuel calls o = .ok o') :
    Tracks o' ∧
      Matches env o o' fun env' => NamedOutput.run env' fuel calls o.named = .ok o'.named := by
  induction calls generalizing o with
  | nil =>
      cases h
      exact ⟨ho, .of_forall rfl fun room => rfl⟩
  | cons call calls ih =>
      rw [run_cons] at h
      obtain ⟨o₁, hstep, hrun⟩ := bind_eq_ok.mp h
      obtain ⟨htracks, hsame⟩ := ho.step hprint hstep
      obtain ⟨htracks', hmatches⟩ := ih htracks (hsame ▸ hprint) hrun
      refine ⟨htracks', (step_matches hprint hstep).trans hmatches fun env' hfirst hlater => ?_⟩
      rw [NamedOutput.run_cons, hfirst]
      exact hlater

/-- **A stream on its buffer.** Whatever `open` and `write` return, what a sequence of calls on
a stream does is what it does to a stream that is only given some results of its writes; and in
the end the file and behind it what the buffer still holds are the bytes that the calls handed
over, in order, if no flush failed half-way other than with as many bytes written as were
left. -/
theorem buffered_refines_named {printBuffer : List UInt8} {calls : List OutputCall}
    (hprint : printBuffer ≠ []) (h : run env flushes fuel calls (new printBuffer) = .ok o') :
    (∃ room, NamedOutput.run ⟨env.opens, room⟩ fuel calls .new = .ok o'.named) ∧
      (0 ≤ o'.named.fd → (∀ failure ∈ o'.buffer.failures, Harmless failure) →
        o'.buffer.file ++ o'.buffer.outbuf.held = o'.named.taken) := by
  obtain ⟨htracks, rets, -, hrun⟩ := run_tracks (tracks_new printBuffer) hprint h
  refine ⟨⟨fun i => rets.getD i 0, hrun _ fun i hi => ?_⟩, fun hfd hall => ?_⟩
  · simp [new, NamedOutput.new, List.getD_eq_getElem?_getD, hi]
  · obtain ⟨fd, hpassed⟩ := htracks.opened hfd
    have hstream := hpassed.stream hall
    simpa [OutbufFile.stream, OutbufFile.attached] using hstream

/-- A flush of four bytes of which two are written: the other two are held, and the fifth. -/
theorem buffered_refines_named_half :
    let o' : BufferedOutput := ⟨⟨[97], 3, false, 1, 2, [1, 2, 3, 4, 5]⟩, [0, 0, 0, 0],
      ⟨⟨hpcioOutbufMagic, [3, 4, 5], [4], 3⟩, [1, 2], 2, [(2, 4)]⟩⟩
    run (.fullAfter 2) 5 5 [.setFileName [97], .writeb [1, 2, 3, 4], .writeb [5]]
        (new [0, 0, 0, 0]) = .ok o' ∧
      (∃ room, NamedOutput.run ⟨fun _ => .opened 3, room⟩ 5
        [.setFileName [97], .writeb [1, 2, 3, 4], .writeb [5]] .new = .ok o'.named) ∧
      o'.buffer.file ++ o'.buffer.outbuf.held = [1, 2, 3, 4, 5] := by
  intro o'
  have hrun : run (.fullAfter 2) 5 5 [.setFileName [97], .writeb [1, 2, 3, 4], .writeb [5]]
      (new [0, 0, 0, 0]) = .ok o' := by decide +kernel
  obtain ⟨hnamed, hstream⟩ := buffered_refines_named (List.cons_ne_nil 0 _) hrun
  refine ⟨hrun, hnamed, hstream (by decide) ?_⟩
  simp [o', Harmless]

/-! ### A disk that takes what it is given

Here no flush fails, and every call of the loop takes all it is given in one round. The pieces
are the texts of the calls of `writef`. -/

/-- An open stream to which the pieces were written: the first ones are in the file, and the
buffer holds the others. -/
structure Holds (pieces : List (List UInt8)) (o : BufferedOutput) : Prop where
  print : o.printBuffer ≠ []
  opened : 0 ≤ o.named.fd
  magic : o.buffer.outbuf.magic = hpcioOutbufMagic
  bufSize : o.buffer.outbuf.bufSize = printBufferSize
  split : ∃ k ≤ pieces.length, o.buffer.file = (pieces.take k).flatten ∧
    o.buffer.outbuf.held = (pieces.drop k).flatten

section Holds

variable {pieces : List (List UInt8)} {buf : List UInt8}

/-- What went into the buffer is the pieces. -/
theorem Holds.stream (h : Holds pieces o) : o.buffer.stream = pieces.flatten := by
  obtain ⟨k, -, hfile, hheld⟩ := h.split
  rw [OutbufFile.stream, hfile, hheld, ← List.flatten_append, List.take_append_drop]

/-- The buffer is used from its start on when a piece does not fit behind what it holds, so the
pieces in the file are whole. -/
theorem Holds.write {buffer : OutbufFile} {ret : Int} (ho : Holds pieces o)
    (henv : env.Healthy) (hsize : buf.length ≤ printBufferSize)
    (h : hpcioOutbufWrite env flushes buf o.buffer = .ok (ret, buffer)) :
    ret = buf.length ∧ ∀ named : NamedOutput, 0 ≤ named.fd →
      Holds (pieces ++ [buf]) { o with named := named, buffer := buffer } := by
  obtain ⟨hret, hmagic, hcopied⟩ :=
    hpcioOutbufWrite_healthy henv ho.magic (ho.bufSize ▸ hsize) h
  have hbufSize := (hpcioOutbufWrite_passed h).2.bufSize
  refine ⟨hret, fun named hfd => ⟨ho.print, hfd, hmagic, hbufSize.trans ho.bufSize, ?_⟩⟩
  -- the piece was put behind the others, or the buffer was emptied for it
  rcases hcopied with ⟨hfile, hheld⟩ | ⟨hfile, hheld⟩
  · obtain ⟨k, hk, hfile', hheld'⟩ := ho.split
    refine ⟨k, by rw [List.length_append]; omega, ?_, ?_⟩
    · rw [List.take_append_of_le_length hk]
      exact hfile.trans hfile'
    · rw [List.drop_append_of_le_length hk, List.flatten_append, List.flatten_singleton]
      exact hheld.trans (by rw [hheld'])
  · refine ⟨pieces.length, by rw [List.length_append]; omega, ?_, ?_⟩
    · rw [List.take_left]
      exact hfile.trans ho.stream
    · rw [List.drop_left, List.flatten_singleton]
      exact hheld

/-- Sending a piece takes one round. -/
theorem Holds.send (fuel : Nat) (ho : Holds pieces o) (henv : env.Progresses)
    (hsize : buf.length < localBufferSize) (hflushes : printBufferSize ≤ flushes) :
    ∃ ret o', o.send env flushes (fuel + 1) buf = .ok (ret, o') ∧ Holds (pieces ++ [buf]) o' := by
  have hdata : toInt32 buf.length = buf.length := toInt32_of_lt (by
    unfold localBufferSize at hsize
    omega)
  have hfits : buf.length ≤ printBufferSize := Nat.le_of_lt hsize
  have hheld : o.buffer.outbuf.inUse ≤ flushes := by
    have hle : o.buffer.outbuf.inUse ≤ o.buffer.outbuf.bufSize := Nat.le_add_right _ _
    rw [ho.bufSize] at hle
    omega
  obtain ⟨ret, buffer, hwrite⟩ :=
    hpcioOutbufWrite_returns henv (ho.bufSize.symm ▸ hfits) hheld
  obtain ⟨rfl, hholds⟩ := ho.write henv.healthy hfits hwrite
  rcases Nat.eq_zero_or_pos buf.length with hzero | hpos
  · -- nothing is sent, and a write of nothing changes nothing
    have hnil : buf = [] := List.length_eq_zero_iff.mp hzero
    have hsame : buffer = o.buffer := by
      rw [hnil, hpcioOutbufWrite_nil ho.magic] at hwrite
      cases hwrite
      rfl
    subst hsame
    exact ⟨_, _, send_eq_ok.mpr ⟨rfl, o, sendLoop_done (by omega), rfl⟩,
      hholds { o.named with locked := false } ho.opened⟩
  · have hnext : nextData buf (buf.length : Nat) 0 = buf := by
      simp [nextData]
    have hloop : sendLoop env flushes buf (toInt32 buf.length) (fuel + 1) 0 o =
        .ok (o.handOver buf 0 buf.length buffer) := by
      rw [hdata, sendLoop_succ (by omega) (by rw [hnext]; exact hwrite), sendLoop_done (by omega)]
    exact ⟨_, _, send_eq_ok.mpr ⟨rfl, _, hloop, rfl⟩, hholds _ ho.opened⟩

/-- Writing a piece to an open stream. -/
theorem Holds.writef (fuel : Nat) (ho : Holds pieces o) (henv : env.Progresses)
    (hsize : buf.length < localBufferSize) (hflushes : printBufferSize ≤ flushes) :
    ∃ o', o.step env flushes (fuel + 1) (.writef buf) = .ok o' ∧ Holds (pieces ++ [buf]) o' := by
  have hlocked : Holds pieces { o with named := { o.named with locked := true } } :=
    ⟨ho.print, ho.opened, ho.magic, ho.bufSize, ho.split⟩
  obtain ⟨ret, o', hsend, hholds⟩ := hlocked.send fuel henv hsize hflushes
  refine ⟨o', map_eq_ok.mpr ⟨(ret, o'), ?_, rfl⟩, hholds⟩
  rw [BufferedOutput.writef, if_pos hsize]
  cases writeb_cases env ho.print with
  | returns _ closed => exact absurd ho.opened (Int.not_le.mpr closed)
  | opens _ _ closed => exact absurd ho.opened (Int.not_le.mpr closed)
  | isOpen _ eq _ =>
      rw [eq]
      exact hsend

/-- The first write opens the file. -/
theorem writef_opens (fuel : Nat) (hprint : o.printBuffer.length = printBufferSize)
    (henv : env.Progresses) (hfd : o.named.fd < 0) (hname : o.named.fileName ≠ [])
    (hopen : NamedOutput.WillOpen ⟨env.opens, fun _ => 0⟩ o.named)
    (hsize : buf.length < localBufferSize) (hflushes : printBufferSize ≤ flushes) :
    ∃ o', o.step env flushes (fuel + 1) (.writef buf) = .ok o' ∧ Holds [buf] o' := by
  have hne : o.printBuffer ≠ [] := by
    intro hnil
    rw [hnil] at hprint
    cases hprint
  cases writeb_cases env hne with
  | returns _ _ why => exact absurd why (by simp [hname, hopen])
  | isOpen opened => exact absurd opened (Int.not_le.mpr hfd)
  | opens k fd _ eq _ =>
      have hholds : Holds [] (o.attach { o.named.tried k fd with locked := true }) :=
        ⟨hne, Int.natCast_nonneg fd, rfl,
          by simpa [attach, OutbufFile.attached, bufSize] using hprint, 0, Nat.le_refl 0, rfl, rfl⟩
      obtain ⟨ret, o', hsend, hholds'⟩ := hholds.send fuel henv hsize hflushes
      refine ⟨o', map_eq_ok.mpr ⟨(ret, o'), ?_, rfl⟩, hholds'⟩
      rw [BufferedOutput.writef, if_pos hsize, eq]
      exact hsend

/-- The run lemma: the pieces of all writes. -/
theorem Holds.run {bufs : List (List UInt8)} (fuel : Nat) (ho : Holds pieces o)
    (henv : env.Progresses) (hsize : ∀ buf ∈ bufs, buf.length < localBufferSize) (hflushes : printBufferSize ≤ flushes) :
    ∃ o', run env flushes (fuel + 1) (bufs.map .writef) o = .ok o' ∧ Holds (pieces ++ bufs) o' := by
  induction bufs generalizing pieces o with
  | nil => exact ⟨o, rfl, by simpa using ho⟩
  | cons buf bufs ih =>
      obtain ⟨hfirst, hrest⟩ := List.forall_mem_cons.mp hsize
      obtain ⟨o₁, hstep, ho₁⟩ := ho.writef fuel henv hfirst hflushes
      obtain ⟨o', hrun, ho'⟩ := ih ho₁ hrest
      refine ⟨o', ?_, by simpa using ho'⟩
      rw [List.map_cons, run_cons, hstep]
      exact hrun

/-- The destructor writes what is held. -/
theorem Holds.destroy (ho : Holds pieces o) (henv : env.Progresses)
    (hflushes : printBufferSize ≤ flushes) :
    ∃ b', o.destroy env flushes = .ok b' ∧ b'.file = pieces.flatten := by
  have hheld : o.buffer.outbuf.inUse - 0 ≤ flushes := by
    have hle : o.buffer.outbuf.inUse ≤ o.buffer.outbuf.bufSize := Nat.le_add_right _ _
    rw [ho.bufSize] at hle
    omega
  obtain ⟨done, b₁, hflush⟩ := flushLoop_returns henv hheld
  obtain ⟨rfl, hfile, -⟩ := (outbufFlushBuffer_flushed hflush).healthy henv.healthy
  have hclose : ∃ closed b', hpcioOutbufClose env flushes o.buffer = .ok (closed, b') ∧
      b'.file = b₁.file := by
    rw [hpcioOutbufClose, if_neg (not_not_intro ho.magic), outbufFlushBuffer, hflush]
    cases env.closes with
    | false => exact ⟨false, _, rfl, rfl⟩
    | true => exact ⟨true, _, rfl, rfl⟩
  obtain ⟨closed, b', hclose, hsame⟩ := hclose
  refine ⟨b', ?_, by rw [hsame, hfile, ho.stream]⟩
  rw [BufferedOutput.destroy, if_pos ho.opened, hclose]
  rfl

end Holds

/-- The bytes of the pieces are those of their texts. -/
theorem mutf8_flatMap_print (fragments : List Fragment) :
    mutf8 (fragments.flatMap Fragment.print) =
      (fragments.map fun data => mutf8 data.print).flatten := by
  induction fragments with
  | nil => rfl
  | cons data fragments ih => rw [List.flatMap_cons, mutf8_append, ih]; rfl

/-- Pieces that were written fit the local buffer of `writef`. -/
theorem lt_of_writeAll {fragments : List Fragment} {out out' : Output}
    (h : out.writeAll fragments = .ok out') :
    ∀ data ∈ fragments, (mutf8 data.print).length < localBufferSize := by
  induction fragments generalizing out with
  | nil => simp
  | cons data fragments ih =>
      rw [Output.writeAll_cons] at h
      obtain ⟨out₁, hfirst, hrest⟩ := bind_eq_ok.mp h
      obtain ⟨_, hassert, -⟩ := bind_eq_ok.mp hfirst
      have hfits := of_decide_eq_true (assert_eq_ok.mp hassert)
      exact List.forall_mem_cons.mpr ⟨by rwa [length_mutf8], ih hrest⟩

/-- Text that is not empty has bytes. -/
theorem mutf8_ne_nil {s : List Char} (h : s ≠ []) : mutf8 s ≠ [] := by
  obtain ⟨c, s', rfl⟩ := List.exists_cons_of_ne_nil h
  intro hnil
  have hlength := length_mutf8 (c :: s')
  have hpos := Text.charSize_pos c
  rw [hnil, Text.byteSize_cons, List.length_nil] at hlength
  omega

/-- A stream that has its name and nothing more. -/
def withName (fileName : List Char) : NamedOutput := ⟨mutf8 fileName, -1, false, 0, 0, []⟩

/-- The first call gives the stream its name. -/
theorem step_setFileName {printBuffer : List UInt8} {fileName : List Char} {start : Output}
    (hset : Output.new.setFileName fileName = (true, start)) :
    (new printBuffer).step env flushes fuel (.setFileName (mutf8 fileName)) =
      .ok { new printBuffer with named := withName fileName } := by
  have hlong : byteSize fileName < nameBufferSize - 1 := by
    by_contra hge
    rw [Output.setFileName, if_neg (by simp [Output.new]),
      if_pos (Nat.le_of_not_lt hge)] at hset
    cases hset
  have hnamed : NamedOutput.new.setFileName (mutf8 fileName) = .ok (true, withName fileName) := by
    rw [NamedOutput.setFileName, if_neg (by simp [NamedOutput.new]), length_mutf8,
      if_neg (Nat.not_le.mpr hlong), NamedOutput.storeName, length_mutf8, if_pos (by omega)]
    rfl
  simp only [step, setFileName, new, hnamed]
  rfl

/-- **The text of a file.** Whatever part of its bytes each call of `write` takes, as long as it
takes one, a stream whose file can be opened gets the pieces that the agent writes into that
file: all of them when the stream is destroyed, and after each write before that a number of
whole pieces from the first one on. Only inside a flush can a piece be half written. -/
theorem buffered_file_text {printBuffer : List UInt8} {fileName : List Char}
    {fragments : List Fragment} {start out : Output}
    (hprint : printBuffer.length = printBufferSize) (henv : env.Progresses)
    (hflushes : printBufferSize ≤ flushes) (hname : fileName ≠ [])
    (hset : Output.new.setFileName fileName = (true, start))
    (hopen : NamedOutput.WillOpen ⟨env.opens, fun _ => 0⟩ (withName fileName))
    (hout : start.writeAll fragments = .ok out) :
    ∃ o' b', run env flushes (fuel + 1) (.setFileName (mutf8 fileName) ::
        fragments.map fun data => .writef (mutf8 data.print)) (new printBuffer) = .ok o' ∧
      (∃ k, o'.buffer.file = mutf8 ((fragments.take k).flatMap Fragment.print)) ∧
      o'.destroy env flushes = .ok b' ∧ b'.file = mutf8 out.text := by
  have hpos : 0 < byteSize fileName := by
    rw [← length_mutf8]
    exact List.length_pos_of_ne_nil (mutf8_ne_nil hname)
  have hstart : start = { Output.new with fileName := fileName } := by
    unfold Output.setFileName at hset
    split_ifs at hset
    · cases hset
    · cases hset
    · cases hset
      rfl
  have htext : out.text = fragments.flatMap Fragment.print := by
    have hwritten := (Output.writeAll_ready (.inr (by rw [hstart]; exact hpos)) hout).1
    rw [Output.text, hwritten, hstart]
    rfl
  rw [run_cons, step_setFileName hset, ok_bind, htext]
  -- without a write there is no file; otherwise the first write opens it
  cases fragments with
  | nil => exact ⟨_, _, rfl, ⟨0, rfl⟩, rfl, rfl⟩
  | cons data fragments =>
      obtain ⟨hfirst, hrest⟩ := List.forall_mem_cons.mp (lt_of_writeAll hout)
      obtain ⟨o₂, hwrite, hholds⟩ :=
        writef_opens (o := { new printBuffer with named := withName fileName }) fuel hprint henv
          (Int.negSucc_lt_zero 0) (mutf8_ne_nil hname) hopen hfirst hflushes
      have hsizes : ∀ buf ∈ fragments.map fun data => mutf8 data.print,
          buf.length < localBufferSize := by simpa using hrest
      obtain ⟨o', hrun, hholds'⟩ := hholds.run fuel henv hsizes hflushes
      obtain ⟨b', hdestroy, hfile⟩ := hholds'.destroy henv hflushes
      refine ⟨o', b', ?_, ?_, hdestroy, ?_⟩
      · rw [List.map_cons, run_cons, hwrite, ok_bind]
        rwa [List.map_map] at hrun
      · obtain ⟨k, -, hfile', -⟩ := hholds'.split
        refine ⟨k, ?_⟩
        rw [mutf8_flatMap_print, List.map_take]
        exact hfile'
      · rw [mutf8_flatMap_print]
        exact hfile

/-- A disk that takes two bytes at a time. -/
theorem buffered_file_text_slowly :
    let env : OutbufEnv := ⟨fun _ => .opened 3, fun _ => .wrote 2, true⟩
    let fragments : List Fragment := [.frame ['3'] 5, .metric 7]
    ∃ o' b', run env 1024 1 (.setFileName (mutf8 ['a']) ::
        fragments.map fun data => .writef (mutf8 data.print)) (new (List.replicate 1024 0)) =
          .ok o' ∧
      (∃ k, o'.buffer.file = mutf8 ((fragments.take k).flatMap Fragment.print)) ∧
      o'.destroy env 1024 = .ok b' ∧ b'.file = mutf8 (Output.text ⟨['a'], true, fragments⟩) := by
  intro env fragments
  have hout : (⟨['a'], false, []⟩ : Output).writeAll fragments = .ok ⟨['a'], true, fragments⟩ := rfl
  exact buffered_file_text (List.length_replicate ..) (fun _ => ⟨2, by decide, rfl⟩) (Nat.le_refl _)
    (List.cons_ne_nil 'a' []) rfl ⟨0, 3, ⟨fun _ h => absurd h (Nat.not_lt_zero _), rfl⟩⟩ hout

/-! ### A disk that takes nothing

Each flush fails at its first call, so the bytes in use stay, and a write takes what fits
behind them. The loop of `writeb` goes on as long as bytes are left. -/

/-- The buffer has taken the data, and the file nothing. -/
structure Filled (data : List UInt8) (o o' : BufferedOutput) : Prop where
  fits : data.length ≤ o.buffer.outbuf.bufSize - o.buffer.outbuf.inUse
  outbuf : o'.buffer.outbuf = o.buffer.outbuf.copyIn data
  file : o'.buffer.file = o.buffer.file
  fd : o'.named.fd = o.named.fd

section Filled

variable {buf data data' : List UInt8} {sentSize : Nat} {o₁ : BufferedOutput}

/-- Given nothing, the buffer stays as it is. -/
theorem Filled.refl (o : BufferedOutput) : Filled [] o o :=
  ⟨Nat.zero_le _, (copyIn_nil _).symm, rfl, rfl⟩

/-- What is behind the bytes in use after `data` was taken. -/
theorem Filled.room (h : Filled data o o') :
    o'.buffer.outbuf.bufSize - o'.buffer.outbuf.inUse =
      o.buffer.outbuf.bufSize - o.buffer.outbuf.inUse - data.length := by
  rw [h.outbuf, bufSize_copyIn h.fits, inUse_copyIn, Nat.sub_add_eq]

/-- Data filled in by one operation and by the next is filled in by both, in this order. -/
theorem Filled.trans (h : Filled data o o₁) (h' : Filled data' o₁ o') :
    Filled (data ++ data') o o' where
  fits := by
    have hfits := h.fits
    have hfits' := h'.fits
    rw [h.room] at hfits'
    rw [List.length_append]
    omega
  outbuf := by rw [h'.outbuf, h.outbuf, copyIn_copyIn]
  file := h'.file.trans h.file
  fd := h'.fd.trans h.fd

/-- A call takes what there is room for. -/
theorem handOver_filled (flushes : Nat) (buf data : List UInt8) (sentSize : Nat)
    (henv : env.Dead) (hmagic : o.buffer.outbuf.magic = hpcioOutbufMagic) :
    ∃ (size : Nat) (buffer : OutbufFile),
      hpcioOutbufWrite env (flushes + 1) data o.buffer = .ok ((size : Int), buffer) ∧
      size = min data.length (o.buffer.outbuf.bufSize - o.buffer.outbuf.inUse) ∧
      Filled (data.take size) o (o.handOver buf sentSize size buffer) := by
  obtain ⟨size, buffer, hwrite, hsize, hfile, houtbuf⟩ :=
    hpcioOutbufWrite_dead flushes henv hmagic data
  refine ⟨size, buffer, hwrite, hsize, ?_, houtbuf, hfile, rfl⟩
  rw [List.length_take]
  omega

/-- The loop ends only when there is room for all that is left. -/
theorem sendLoop_filled (henv : env.Dead) (hmagic : o.buffer.outbuf.magic = hpcioOutbufMagic)
    (hsent : sentSize ≤ buf.length)
    (h : sendLoop env (flushes + 1) buf buf.length fuel sentSize o = .ok o') :
    Filled (buf.drop sentSize) o o' := by
  induction fuel generalizing sentSize o with
  | zero =>
      rcases Nat.lt_or_eq_of_le hsent with hlt | rfl
      · rw [sendLoop_zero (by omega)] at h
        cases h
      · rw [sendLoop_done (Int.le_refl _)] at h
        cases h
        simpa using Filled.refl _
  | succ fuel ih =>
      rcases Nat.lt_or_eq_of_le hsent with hlt | rfl
      · obtain ⟨size, buffer, hwrite, hsize, hfilled⟩ :=
          handOver_filled flushes buf (nextData buf buf.length sentSize) sentSize henv hmagic
        have hnext : nextData buf buf.length sentSize = buf.drop sentSize := by
          rw [nextData, Int.toNat_natCast, List.take_of_length_le (by rw [List.length_drop])]
        rw [hnext] at hsize hfilled
        rw [List.length_drop] at hsize
        rw [sendLoop_succ (by omega) hwrite] at h
        have hmagic' : (o.handOver buf sentSize size buffer).buffer.outbuf.magic =
            hpcioOutbufMagic := by rw [hfilled.outbuf]; exact hmagic
        have hrest := ih hmagic' (by omega) h
        rw [← List.drop_drop] at hrest
        -- the bytes of this round and of the later ones
        have hboth := hfilled.trans hrest
        rwa [List.take_append_drop] at hboth
      · rw [sendLoop_done (Int.le_refl _)] at h
        cases h
        simpa using Filled.refl _

/-- If there is room, the first round takes all. -/
theorem sendLoop_fills (flushes : Nat) (henv : env.Dead)
    (hmagic : o.buffer.outbuf.magic = hpcioOutbufMagic)
    (hfits : buf.length ≤ o.buffer.outbuf.bufSize - o.buffer.outbuf.inUse) :
    ∃ o', sendLoop env (flushes + 1) buf buf.length 1 0 o = .ok o' := by
  rcases Nat.eq_zero_or_pos buf.length with hzero | hpos
  · exact ⟨o, sendLoop_done (by omega)⟩
  · obtain ⟨size, buffer, hwrite, hsize, -⟩ :=
      handOver_filled flushes buf (nextData buf buf.length 0) 0 henv hmagic
    have hall : size = buf.length := by
      have hlen : (nextData buf buf.length 0).length = buf.length := by simp [nextData]
      omega
    rw [sendLoop_succ (by omega) hwrite, sendLoop_done (by omega)]
    exact ⟨_, rfl⟩

/-- A write that returned has put its bytes into the buffer. -/
theorem writeb_filled {ret : Int} (henv : env.Dead)
    (hmagic : o.buffer.outbuf.magic = hpcioOutbufMagic) (hopen : 0 ≤ o.named.fd)
    (hsize : buf.length < 2 ^ 31) (h : o.writeb env (flushes + 1) fuel buf = .ok (ret, o')) :
    Filled buf o o' := by
  rw [writeb, if_neg (Int.not_lt.mpr hopen)] at h
  obtain ⟨-, o₁, hloop, rfl⟩ := send_eq_ok.mp h
  rw [toInt32_of_lt hsize] at hloop
  obtain ⟨hfits, houtbuf, hfile, hfd⟩ :=
    sendLoop_filled henv (by exact hmagic) (Nat.zero_le _) hloop
  exact ⟨hfits, houtbuf, hfile, hfd⟩

/-- A write that fits returns. -/
theorem writeb_fills (flushes : Nat) (henv : env.Dead)
    (hmagic : o.buffer.outbuf.magic = hpcioOutbufMagic) (hopen : 0 ≤ o.named.fd) (hsize : buf.length < 2 ^ 31)
    (hfits : buf.length ≤ o.buffer.outbuf.bufSize - o.buffer.outbuf.inUse) :
    ∃ ret o', o.writeb env (flushes + 1) 1 buf = .ok (ret, o') := by
  obtain ⟨o', hloop⟩ := sendLoop_fills (o := { o with named := { o.named with locked := true } })
    flushes henv hmagic hfits
  rw [writeb, if_neg (Int.not_lt.mpr hopen)]
  exact ⟨_, _, send_eq_ok.mpr ⟨rfl, o', by rwa [toInt32_of_lt hsize], rfl⟩⟩

/-- The run lemma: writes that returned have put their bytes into the buffer, one behind the
other. -/
theorem run_filled {bufs : List (List UInt8)} (henv : env.Dead)
    (hmagic : o.buffer.outbuf.magic = hpcioOutbufMagic) (hopen : 0 ≤ o.named.fd)
    (hsize : ∀ buf ∈ bufs, buf.length < 2 ^ 31)
    (h : run env (flushes + 1) fuel (bufs.map .writeb) o = .ok o') : Filled bufs.flatten o o' := by
  induction bufs generalizing o with
  | nil =>
      cases h
      exact .refl _
  | cons buf bufs ih =>
      obtain ⟨hfirst, hrest⟩ := List.forall_mem_cons.mp hsize
      rw [List.map_cons, run_cons] at h
      obtain ⟨o₁, hstep, hrun⟩ := bind_eq_ok.mp h
      obtain ⟨⟨ret, o₁⟩, hwrite, rfl⟩ := map_eq_ok.mp hstep
      have hfilled := writeb_filled henv hmagic hopen hfirst hwrite
      rw [List.flatten_cons]
      refine hfilled.trans (ih ?_ ?_ hrest hrun)
      · rw [hfilled.outbuf]
        exact hmagic
      · rw [hfilled.fd]
        exact hopen

/-- Writes that fit together return. -/
theorem run_fills {bufs : List (List UInt8)} (flushes : Nat) (henv : env.Dead)
    (hmagic : o.buffer.outbuf.magic = hpcioOutbufMagic) (hopen : 0 ≤ o.named.fd)
    (hsize : ∀ buf ∈ bufs, buf.length < 2 ^ 31)
    (hfits : bufs.flatten.length ≤ o.buffer.outbuf.bufSize - o.buffer.outbuf.inUse) :
    ∃ o', run env (flushes + 1) 1 (bufs.map .writeb) o = .ok o' := by
  induction bufs generalizing o with
  | nil => exact ⟨o, rfl⟩
  | cons buf bufs ih =>
      obtain ⟨hfirst, hrest⟩ := List.forall_mem_cons.mp hsize
      rw [List.flatten_cons, List.length_append] at hfits
      obtain ⟨ret, o₁, hwrite⟩ :=
        writeb_fills flushes henv hmagic hopen hfirst (by omega)
      have hfilled := writeb_filled henv hmagic hopen hfirst hwrite
      obtain ⟨o', hrun⟩ := ih (o := o₁) (by rw [hfilled.outbuf]; exact hmagic)
        (by rw [hfilled.fd]; exact hopen) hrest (by rw [hfilled.room]; omega)
      have hstep : o.step env (flushes + 1) 1 (.writeb buf) = .ok o₁ :=
        map_eq_ok.mpr ⟨(ret, o₁), hwrite, rfl⟩
      refine ⟨o', ?_⟩
      rw [List.map_cons, run_cons, hstep]
      exact hrun

/-- The loop ends, or it is still at it when its rounds are used up: no call of
`hpcio_outbuf_write` is refused. -/
theorem sendLoop_dead (henv : env.Dead) (hmagic : o.buffer.outbuf.magic = hpcioOutbufMagic)
    (hsent : sentSize ≤ buf.length) :
    (∃ o', sendLoop env (flushes + 1) buf buf.length fuel sentSize o = .ok o') ∨
      sendLoop env (flushes + 1) buf buf.length fuel sentSize o = .error .outOfFuel := by
  induction fuel generalizing sentSize o with
  | zero =>
      rcases Nat.lt_or_eq_of_le hsent with hlt | rfl
      · exact .inr (sendLoop_zero (by omega))
      · exact .inl ⟨o, sendLoop_done (Int.le_refl _)⟩
  | succ fuel ih =>
      rcases Nat.lt_or_eq_of_le hsent with hlt | rfl
      · obtain ⟨size, buffer, hwrite, hsize, hfilled⟩ :=
          handOver_filled flushes buf (nextData buf buf.length sentSize) sentSize henv hmagic
        have hlen : (nextData buf buf.length sentSize).length ≤ buf.length - sentSize := by
          simp [nextData]
        rw [sendLoop_succ (by omega) hwrite]
        refine ih ?_ (by omega)
        rw [hfilled.outbuf]
        exact hmagic
      · exact .inl ⟨o, sendLoop_done (Int.le_refl _)⟩

/-- A write returns or has used up its rounds. -/
theorem writeb_dead (henv : env.Dead) (hmagic : o.buffer.outbuf.magic = hpcioOutbufMagic)
    (hopen : 0 ≤ o.named.fd) (hsize : buf.length < 2 ^ 31) :
    (∃ ret o', o.writeb env (flushes + 1) fuel buf = .ok (ret, o')) ∨
      o.writeb env (flushes + 1) fuel buf = .error .outOfFuel := by
  rw [writeb, if_neg (Int.not_lt.mpr hopen), send, toInt32_of_lt hsize]
  rcases sendLoop_dead (o := { o with named := { o.named with locked := true } }) henv hmagic
    (Nat.zero_le _) with ⟨o', hloop⟩ | hloop
  · left
    rw [hloop]
    exact ⟨_, _, rfl⟩
  · right
    rw [hloop]
    rfl

/-- All writes return, or one of them has used up its rounds. -/
theorem run_dead {bufs : List (List UInt8)} (henv : env.Dead)
    (hmagic : o.buffer.outbuf.magic = hpcioOutbufMagic) (hopen : 0 ≤ o.named.fd)
    (hsize : ∀ buf ∈ bufs, buf.length < 2 ^ 31) :
    (∃ o', run env (flushes + 1) fuel (bufs.map .writeb) o = .ok o') ∨
      run env (flushes + 1) fuel (bufs.map .writeb) o = .error .outOfFuel := by
  induction bufs generalizing o with
  | nil => exact .inl ⟨o, rfl⟩
  | cons buf bufs ih =>
      obtain ⟨hfirst, hrest⟩ := List.forall_mem_cons.mp hsize
      rw [List.map_cons, run_cons, step]
      rcases writeb_dead henv hmagic hopen hfirst with ⟨ret, o₁, hwrite⟩ | hwrite
      · have hfilled := writeb_filled henv hmagic hopen hfirst hwrite
        rw [hwrite]
        refine ih ?_ ?_ hrest
        · rw [hfilled.outbuf]
          exact hmagic
        · rw [hfilled.fd]
          exact hopen
      · right
        rw [hwrite]
        rfl

/-- **A full disk.** When `write` fails from now on, writes on an open stream return as long as
all they write still fits the buffer, and the first one that does not fit never returns: its loop
calls `hpcio_outbuf_write`, which takes nothing, again and again, however many rounds it is given.
Nothing reaches the file. -/
theorem buffered_dead_disk {bufs : List (List UInt8)} (henv : env.Dead)
    (hmagic : o.buffer.outbuf.magic = hpcioOutbufMagic) (hopen : 0 ≤ o.named.fd)
    (hsize : ∀ buf ∈ bufs, buf.length < 2 ^ 31) :
    ((∃ fuel o', run env (flushes + 1) fuel (bufs.map .writeb) o = .ok o') ↔
        bufs.flatten.length ≤ o.buffer.outbuf.bufSize - o.buffer.outbuf.inUse) ∧
      (o.buffer.outbuf.bufSize - o.buffer.outbuf.inUse < bufs.flatten.length →
        ∀ fuel, run env (flushes + 1) fuel (bufs.map .writeb) o = .error .outOfFuel) ∧
      ∀ fuel o', run env (flushes + 1) fuel (bufs.map .writeb) o = .ok o' →
        o'.buffer.file = o.buffer.file ∧
          o'.buffer.outbuf.held = o.buffer.outbuf.held ++ bufs.flatten := by
  refine ⟨⟨fun h => ?_, fun hfits => ?_⟩, fun hlarge fuel => ?_, fun fuel o' h => ?_⟩
  · obtain ⟨fuel, o', hrun⟩ := h
    exact (run_filled henv hmagic hopen hsize hrun).fits
  · exact ⟨1, run_fills flushes henv hmagic hopen hsize hfits⟩
  · rcases run_dead henv hmagic hopen hsize with ⟨o', hrun⟩ | hrun
    · have hfits := (run_filled henv hmagic hopen hsize hrun).fits
      omega
    · exact hrun
  · have hfilled := run_filled henv hmagic hopen hsize h
    exact ⟨hfilled.file, by rw [hfilled.outbuf, held_copyIn]⟩

/-- Four bytes of memory, three of them free: two bytes fit, and two more do not. -/
theorem buffered_dead_disk_four :
    let o : BufferedOutput :=
      ⟨⟨[97], 3, false, 0, 0, []⟩, [], .attached ⟨hpcioOutbufMagic, [1], [0, 0, 0], 3⟩⟩
    (∃ fuel o', run (.fullAfter 0) 1 fuel ([[2, 3]].map .writeb) o = .ok o') ∧
      ∀ fuel, run (.fullAfter 0) 1 fuel ([[2, 3], [4, 5]].map .writeb) o = .error .outOfFuel := by
  have hdead : (OutbufEnv.fullAfter 0).Dead := by
    intro i
    unfold OutbufEnv.fullAfter WriteOutcome.Fails
    dsimp only
    split <;> simp
  refine ⟨(buffered_dead_disk hdead rfl (by decide) (by decide)).1.mpr (by decide), ?_⟩
  exact (buffered_dead_disk hdead rfl (by decide) (by decide)).2.1 (by decide)

end Filled

end BufferedOutput

end DroidPerf
