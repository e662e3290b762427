import DroidPerf.NamedOutput

/-!
# DroidPerf.NamedOutputSound

The name of a stream stays inside its buffer and is the name that was set, with an `f` for
every file that was there already; a write returns as long as the buffer behind the file goes
on taking bytes.

`_openFile` and the loop of `writeb` are described by what they find in the environment:
`OpensAfter` and `FailsAfter` for the calls of `open`, `roomFor` for the room of the writes. A
write is then one of four cases (`writeb_cases`), and `delivers_iff` says when it returns.

For the name every call is one `NameStep`, and `HasName` is the invariant of a run:
`HasName.step` goes through the kinds of steps, `HasName.run` is the induction, and
`output_name` the result for a stream with whatever constructor.

The last part relates the stream to the `Output` of the other modules, which has texts in place
of bytes and never fails.
-/

namespace DroidPerf

namespace NamedOutput

variable {env : OutputEnv} {fuel k : Nat} {o o' : NamedOutput}

/-! ### Opening the file

Each round of the loop that does not end it makes the name one byte longer, so the length of
the name measures how long the loop can go on. -/

/-- The stream after `k` names were taken and one more call of `open`. -/
def tried (o : NamedOutput) (k : Nat) (fd : Int) : NamedOutput :=
  { o with
    fileName := o.fileName ++ List.replicate k 102
    openCalls := o.openCalls + k + 1
    fd := fd }

/-- The stream with one more letter and one more call. -/
def next (o : NamedOutput) : NamedOutput :=
  { o with fileName := o.fileName ++ [102], openCalls := o.openCalls + 1 }

/-- One letter first, or one letter more. -/
theorem tried_next (o : NamedOutput) (k : Nat) (fd : Int) :
    o.next.tried k fd = o.tried (k + 1) fd := by
  simp [tried, next, List.replicate_succ]
  omega

/-- The next `k` names are those of files, and there is room for another letter behind each. -/
def Exist (env : OutputEnv) (o : NamedOutput) (k : Nat) : Prop :=
  ∀ i < k, o.fileName.length + i < nameBufferSize - 1 ∧ env.opens (o.openCalls + i) = .eexist

/-- With no names to be taken there is nothing to show. -/
theorem Exist.zero : Exist env o 0 := fun _ hi => absurd hi (Nat.not_lt_zero _)

/-- If the name is taken and so are the next ones, all of them are. -/
theorem Exist.succ (hfirst : o.fileName.length < nameBufferSize - 1)
    (hopen : env.opens o.openCalls = .eexist) (h : Exist env o.next k) : Exist env o (k + 1) := by
  intro i hi
  cases i with
  | zero => exact ⟨hfirst, hopen⟩
  | succ i =>
      obtain ⟨hroom, hexist⟩ := h i (by omega)
      simp only [next, List.length_append, List.length_singleton, Nat.add_assoc,
        Nat.add_comm 1 i] at hroom hexist
      exact ⟨hroom, hexist⟩

/-- `open` succeeds after `k` names of files. -/
def OpensAfter (env : OutputEnv) (o : NamedOutput) (k fd : Nat) : Prop :=
  Exist env o k ∧ env.opens (o.openCalls + k) = .opened fd

/-- `open` fails after `k` names of files, or the buffer is full. -/
def FailsAfter (env : OutputEnv) (o : NamedOutput) (k : Nat) : Prop :=
  Exist env o k ∧ (env.opens (o.openCalls + k) = .failed ∨
    nameBufferSize - 1 ≤ o.fileName.length + k ∧ env.opens (o.openCalls + k) = .eexist)

/-- One more name of a file in front of a loop that succeeds. -/
theorem OpensAfter.succ {fd : Nat} (hfirst : o.fileName.length < nameBufferSize - 1)
    (hopen : env.opens o.openCalls = .eexist) (h : OpensAfter env o.next k fd) :
    OpensAfter env o (k + 1) fd := by
  refine ⟨h.1.succ hfirst hopen, ?_⟩
  rw [← Nat.add_assoc, Nat.add_right_comm]
  exact h.2

/-- One more name of a file in front of a loop that fails. -/
theorem FailsAfter.succ (hfirst : o.fileName.length < nameBufferSize - 1)
    (hopen : env.opens o.openCalls = .eexist) (h : FailsAfter env o.next k) :
    FailsAfter env o (k + 1) := by
  have hcalls : o.openCalls + (k + 1) = o.next.openCalls + k := by
    simp only [next]
    omega
  have hlength : o.fileName.length + (k + 1) = o.next.fileName.length + k := by
    simp only [next, List.length_append, List.length_singleton]
    omega
  refine ⟨h.1.succ hfirst hopen, ?_⟩
  rw [hcalls, hlength]
  exact h.2

/-- A name of a file gets another letter. -/
theorem openLoop_next (hfirst : o.fileName.length < nameBufferSize - 1)
    (hopen : env.opens o.openCalls = .eexist) :
    openLoop env (fuel + 1) o = openLoop env fuel o.next := by
  have hfits : (o.fileName ++ [102]).length < nameBufferSize := by
    rw [List.length_append, List.length_singleton]
    omega
  rw [openLoop, hopen]
  simp only [if_neg (Nat.not_le_of_lt hfirst), storeName, if_pos hfits]
  rfl

/-- The loop ends when the buffer is full at the latest. -/
theorem openLoop_spec (h : nameBufferSize - 1 - o.fileName.length < fuel) :
    (∃ k fd : Nat, openLoop env fuel o = .ok (true, o.tried k fd) ∧ OpensAfter env o k fd) ∨
      ∃ k, openLoop env fuel o = .ok (false, o.tried k o.fd) ∧ FailsAfter env o k := by
  induction fuel generalizing o with
  | zero => cases h
  | succ fuel ih =>
      cases hopen : env.opens o.openCalls with
      | opened fd => exact .inl ⟨0, fd, by simp [openLoop, hopen, tried], .zero, hopen⟩
      | failed => exact .inr ⟨0, by simp [openLoop, hopen, tried], .zero, .inl hopen⟩
      | eexist =>
          -- without room for a letter `_openFile` gives up
          by_cases hfull : nameBufferSize - 1 ≤ o.fileName.length
          · exact .inr ⟨0, by simp [openLoop, hopen, tried, hfull], .zero, .inr ⟨hfull, hopen⟩⟩
          · have hfirst := Nat.lt_of_not_le hfull
            have hlength : o.next.fileName.length = o.fileName.length + 1 := by simp [next]
            rw [openLoop_next hfirst hopen]
            rcases ih (o := o.next) (by omega) with ⟨k, fd, hloop, h⟩ | ⟨k, hloop, h⟩
            · exact .inl ⟨k + 1, fd, by rw [hloop, tried_next], h.succ hfirst hopen⟩
            · exact .inr ⟨k + 1, by rw [hloop, tried_next]; rfl, h.succ hfirst hopen⟩

/-- The file is opened in the end. -/
def WillOpen (env : OutputEnv) (o : NamedOutput) : Prop := ∃ k fd, OpensAfter env o k fd

/-- A loop that fails does not succeed as well. -/
theorem FailsAfter.not_willOpen (h : FailsAfter env o k) : ¬WillOpen env o := by
  obtain ⟨hexist, hlast⟩ := h
  rintro ⟨k', fd, hexist', hopened⟩
  -- whichever ends first, the other would have met the same answer of `open`
  rcases Nat.lt_trichotomy k k' with hlt | rfl | hgt
  · obtain ⟨hroom, hthere⟩ := hexist' k hlt
    rcases hlast with hfailed | ⟨hfull, -⟩
    · rw [hthere] at hfailed
      cases hfailed
    · omega
  · rcases hlast with hfailed | ⟨-, hfailed⟩
    · rw [hopened] at hfailed
      cases hfailed
    · rw [hopened] at hfailed
      cases hfailed
  · have hthere := (hexist k' hgt).2
    rw [hopened] at hthere
    cases hthere

/-- What `_openFile` does for a stream without a file. -/
theorem openFile_spec (env : OutputEnv) (hfd : o.fd < 0) :
    (∃ k fd : Nat, o.openFile env = .ok (true, o.tried k fd) ∧ OpensAfter env o k fd) ∨
      ∃ k, o.openFile env = .ok (false, o.tried k o.fd) ∧ FailsAfter env o k := by
  rw [openFile, if_neg (Int.not_le.mpr hfd)]
  exact openLoop_spec (by unfold nameBufferSize; omega)

/-! ### Handing over the bytes

How often `hpcio_outbuf_write` is called depends on how much it takes each time. What matters
is whether the calls together have room for the piece. -/

/-- How many bytes `n` calls have room for, from the next one on. -/
def roomFor (env : OutputEnv) (o : NamedOutput) (n : Nat) : Nat :=
  ((List.range n).map fun i => env.room (o.writeCalls + i)).sum

/-- Without a call there is no room. -/
theorem roomFor_zero : roomFor env o 0 = 0 := rfl

/-- The room of the next call and of those behind it. -/
theorem roomFor_succ (env : OutputEnv) (n : Nat) (h : o'.writeCalls = o.writeCalls + 1) :
    roomFor env o (n + 1) = env.room o.writeCalls + roomFor env o' n := by
  unfold roomFor
  rw [List.range_succ_eq_map, List.map_cons, List.sum_cons, List.map_map, h]
  congr 3
  funext i
  simp only [Function.comp, Nat.succ_eq_add_one]
  congr 1
  omega

/-- What the loop changes, and what it has handed over when it ends. -/
structure Sent (buf : List UInt8) (dataSize : Int) (sentSize : Nat) (o o' : NamedOutput) :
    Prop where
  taken : o'.taken = o.taken ++ (buf.drop sentSize).take (dataSize.toNat - sentSize)
  fileName : o'.fileName = o.fileName
  fd : o'.fd = o.fd
  openCalls : o'.openCalls = o.openCalls

variable {buf : List UInt8} {dataSize : Int} {sentSize : Nat}

/-- With everything sent the loop ends. -/
theorem sendLoop_done (h : dataSize ≤ sentSize) :
    sendLoop env buf dataSize fuel sentSize o = .ok o := by
  rw [sendLoop.eq_def]
  exact if_neg (Int.not_lt.mpr h)

/-- How much the next call takes. -/
def retSize (env : OutputEnv) (o : NamedOutput) (dataSize : Int) (sentSize : Nat) : Nat :=
  min (env.room o.writeCalls) (dataSize.toNat - sentSize)

/-- The stream after a call that takes `size` bytes. -/
def handOver (buf : List UInt8) (sentSize size : Nat) (o : NamedOutput) : NamedOutput :=
  { o with
    writeCalls := o.writeCalls + 1
    taken := o.taken ++ (buf.drop sentSize).take size }

/-- With something left it does not, without fuel. -/
theorem sendLoop_zero (h : (sentSize : Int) < dataSize) :
    sendLoop env buf dataSize 0 sentSize o = .error .outOfFuel := by
  rw [sendLoop, if_pos h]

/-- One round hands over as much as the call takes. -/
theorem sendLoop_succ (h : (sentSize : Int) < dataSize) :
    sendLoop env buf dataSize (fuel + 1) sentSize o =
      sendLoop env buf dataSize fuel (sentSize + retSize env o dataSize sentSize)
        (o.handOver buf sentSize (retSize env o dataSize sentSize)) := by
  rw [sendLoop, if_pos h]
  rfl

/-- With nothing left, nothing is handed over. -/
theorem Sent.done (h : dataSize ≤ sentSize) : Sent buf dataSize sentSize o o := by
  have hleft : dataSize.toNat - sentSize = 0 := by omega
  exact ⟨by rw [hleft, List.take_zero, List.append_nil], rfl, rfl, rfl⟩

/-- The bytes of a call and those of the calls behind it. -/
theorem Sent.handOver {size : Nat} (hsize : size ≤ dataSize.toNat - sentSize)
    (h : Sent buf dataSize (sentSize + size) (o.handOver buf sentSize size) o') :
    Sent buf dataSize sentSize o o' := by
  refine ⟨?_, h.fileName, h.fd, h.openCalls⟩
  have hsplit : dataSize.toNat - sentSize = size + (dataSize.toNat - (sentSize + size)) := by
    omega
  rw [h.taken, hsplit, List.take_add, List.drop_drop, ← List.append_assoc]
  rfl

/-- What a loop that ends has handed over. -/
theorem sendLoop_sent (h : sendLoop env buf dataSize fuel sentSize o = .ok o') :
    Sent buf dataSize sentSize o o' := by
  induction fuel generalizing sentSize o with
  | zero =>
      rcases Int.lt_or_le sentSize dataSize with hlt | hle
      · rw [sendLoop_zero hlt] at h
        cases h
      · rw [sendLoop_done hle] at h
        cases h
        exact .done hle
  | succ fuel ih =>
      rcases Int.lt_or_le sentSize dataSize with hlt | hle
      · rw [sendLoop_succ hlt] at h
        exact .handOver (Nat.min_le_right _ _) (ih h)
      · rw [sendLoop_done hle] at h
        cases h
        exact .done hle

/-- The loop ends when the calls have room for what is left, and not before. -/
theorem sendLoop_returns :
    (∃ o', sendLoop env buf dataSize fuel sentSize o = .ok o') ↔
      ∃ n ≤ fuel, dataSize ≤ sentSize + roomFor env o n := by
  induction fuel generalizing sentSize o with
  | zero =>
      rcases Int.lt_or_le sentSize dataSize with hlt | hle
      · rw [sendLoop_zero hlt]
        refine ⟨fun ⟨o', h⟩ => (by cases h), ?_⟩
        rintro ⟨n, hn, h⟩
        rw [Nat.le_zero.mp hn, roomFor_zero] at h
        omega
      · rw [sendLoop_done hle]
        exact ⟨fun _ => ⟨0, Nat.le_refl 0, by rw [roomFor_zero]; omega⟩, fun _ => ⟨o, rfl⟩⟩
  | succ fuel ih =>
      rcases Int.lt_or_le sentSize dataSize with hlt | hle
      · rw [sendLoop_succ hlt, ih]
        have hroom (n : Nat) :=
          roomFor_succ env n
            (rfl : (o.handOver buf sentSize (retSize env o dataSize sentSize)).writeCalls =
              o.writeCalls + 1)
        unfold retSize at hroom ⊢
        constructor
        · rintro ⟨n, hn, h⟩
          refine ⟨n + 1, by omega, ?_⟩
          rw [hroom]
          omega
        · rintro ⟨n, hn, h⟩
          cases n with
          | zero =>
              rw [roomFor_zero] at h
              omega
          | succ n =>
              -- with room for everything that is left this call is the last one
              rw [hroom] at h
              rcases Nat.le_total (dataSize.toNat - sentSize) (env.room o.writeCalls) with
                hall | hpart
              · exact ⟨0, Nat.zero_le _, by rw [roomFor_zero]; omega⟩
              · exact ⟨n, by omega, by rw [Nat.min_eq_left hpart] at h ⊢; omega⟩
      · rw [sendLoop_done hle]
        exact ⟨fun _ => ⟨0, Nat.zero_le _, by rw [roomFor_zero]; omega⟩, fun _ => ⟨o, rfl⟩⟩

/-- The loop can fail to end, but nothing else goes wrong in it. -/
theorem sendLoop_error {e : OutputFault}
    (h : sendLoop env buf dataSize fuel sentSize o = .error e) : e = .outOfFuel := by
  induction fuel generalizing sentSize o with
  | zero =>
      rcases Int.lt_or_le sentSize dataSize with hlt | hle
      · rw [sendLoop_zero hlt] at h
        cases h
        rfl
      · rw [sendLoop_done hle] at h
        cases h
  | succ fuel ih =>
      rcases Int.lt_or_le sentSize dataSize with hlt | hle
      · rw [sendLoop_succ hlt] at h
        exact ih h
      · rw [sendLoop_done hle] at h
        cases h

/-! ### Writing

The loop starts with nothing sent, on a file that may have to be opened first. -/

/-- What a send that returns has done. -/
theorem send_eq_ok {ret : Int} : o.send env fuel buf = .ok (ret, o') ↔
    ret = toInt32 buf.length ∧ ∃ o₁, sendLoop env buf (toInt32 buf.length) fuel 0 o = .ok o₁ ∧
      o' = { o₁ with locked := false } := by
  constructor
  · intro h
    obtain ⟨o₁, hloop, h⟩ := bind_eq_ok.mp h
    cases h
    exact ⟨rfl, o₁, hloop, rfl⟩
  · rintro ⟨rfl, o₁, hloop, rfl⟩
    exact bind_eq_ok.mpr ⟨o₁, hloop, rfl⟩

/-- The ways through `writeb`: without a name, without a file, with a new file and with one
that is open. -/
theorem writeb_cases (env : OutputEnv) (o : NamedOutput) :
    (o.fd < 0 ∧ o.fileName = [] ∧
        ∀ fuel buf, o.writeb env fuel buf = .ok (0, { o with locked := false })) ∨
      (o.fd < 0 ∧ o.fileName ≠ [] ∧ ∃ k, FailsAfter env o k ∧
        ∀ fuel buf, o.writeb env fuel buf = .ok (0, { o.tried k o.fd with locked := false })) ∨
      (o.fd < 0 ∧ o.fileName ≠ [] ∧ ∃ k fd : Nat, OpensAfter env o k fd ∧ ∀ fuel buf,
        o.writeb env fuel buf = ({ o.tried k fd with locked := true }).send env fuel buf) ∨
      (0 ≤ o.fd ∧ ∀ fuel buf,
        o.writeb env fuel buf = ({ o with locked := true }).send env fuel buf) := by
  rcases Int.lt_or_le o.fd 0 with hfd | hfd
  · by_cases hname : o.fileName = []
    · exact .inl ⟨hfd, hname, fun fuel buf => by simp [writeb, hfd, hname]⟩
    · have hlength : o.fileName.length ≠ 0 := fun h => hname (List.length_eq_zero_iff.mp h)
      rcases openFile_spec (o := { o with locked := true }) env hfd with
        ⟨k, fd, hopen, h⟩ | ⟨k, hopen, h⟩
      · refine .inr (.inr (.inl ⟨hfd, hname, k, fd, h, fun fuel buf => ?_⟩))
        simp only [writeb, if_pos hfd, if_neg hlength, hopen]
        rfl
      · refine .inr (.inl ⟨hfd, hname, k, h, fun fuel buf => ?_⟩)
        simp only [writeb, if_pos hfd, if_neg hlength, hopen]
        rfl
  · refine .inr (.inr (.inr ⟨hfd, fun fuel buf => ?_⟩))
    simp only [writeb, if_neg (Int.not_lt.mpr hfd)]

/-- A write returns, it gives the lock back, and when every byte was taken it is the piece that
was handed over, once and in order. -/
def Delivers (env : OutputEnv) (buf : List UInt8) (o : NamedOutput) : Prop :=
  ∃ fuel ret o', o.writeb env fuel buf = .ok (ret, o') ∧ o'.locked = false ∧
    (o'.taken.length = o.taken.length + buf.length → o'.taken = o.taken ++ buf)

/-- The bytes that were sent, when there are as many as in the piece. -/
theorem Sent.taken_eq (h : Sent buf dataSize 0 o o')
    (hall : o'.taken.length = o.taken.length + buf.length) : o'.taken = o.taken ++ buf := by
  have htaken := h.taken
  rw [List.drop_zero] at htaken
  rw [htaken, List.length_append, List.length_take] at hall
  rw [htaken, List.take_of_length_le (by omega)]

/-- A write to an open file returns when the calls have room for the piece. -/
theorem delivers_of_send {o₁ : NamedOutput}
    (hsend : ∀ fuel buf, o.writeb env fuel buf = o₁.send env fuel buf)
    (htaken : o₁.taken = o.taken) (hcalls : o₁.writeCalls = o.writeCalls) :
    Delivers env buf o ↔ ∃ n, toInt32 buf.length ≤ roomFor env o n := by
  have hroom (n : Nat) : roomFor env o₁ n = roomFor env o n := by
    unfold roomFor
    rw [hcalls]
  constructor
  · rintro ⟨fuel, ret, o', h, -⟩
    rw [hsend] at h
    obtain ⟨-, o₂, hloop, -⟩ := send_eq_ok.mp h
    obtain ⟨n, -, hn⟩ := sendLoop_returns.mp ⟨o₂, hloop⟩
    rw [hroom] at hn
    exact ⟨n, by omega⟩
  · -- as much fuel as there are calls
    rintro ⟨n, hn⟩
    have henough : toInt32 buf.length ≤ (0 : Nat) + roomFor env o₁ n := by
      rw [hroom]
      omega
    obtain ⟨o₂, hloop⟩ := sendLoop_returns.mpr ⟨n, Nat.le_refl n, henough⟩
    refine ⟨n, _, _, (hsend n buf).trans (send_eq_ok.mpr ⟨rfl, o₂, hloop, rfl⟩), rfl, ?_⟩
    rw [← htaken]
    exact (sendLoop_sent hloop).taken_eq

/-- **Writing.** A call of `writeb` returns, unlocked and with the whole piece handed over
once when every byte of it was taken, exactly if it does not come to the loop, for want of a
name or of a file, or if the calls it can make have together room for as many bytes as the
loop is to send. -/
theorem delivers_iff (env : OutputEnv) (buf : List UInt8) (o : NamedOutput) :
    Delivers env buf o ↔
      (o.fd < 0 ∧ (o.fileName = [] ∨ ¬WillOpen env o)) ∨
        ∃ n, toInt32 buf.length ≤ roomFor env o n := by
  rcases writeb_cases env o with ⟨hfd, hname, hwrite⟩ | ⟨hfd, -, k, hfails, hwrite⟩ |
    ⟨hfd, hname, k, fd, hopens, hwrite⟩ | ⟨hfd, hwrite⟩
  · -- without a name nothing is written, and 0 is returned
    refine ⟨fun _ => .inl ⟨hfd, .inl hname⟩, fun _ => ⟨0, 0, _, hwrite 0 buf, rfl, fun hall => ?_⟩⟩
    have hnil : buf = [] := List.length_eq_zero_iff.mp (by simpa using hall)
    rw [hnil, List.append_nil]
  · refine ⟨fun _ => .inl ⟨hfd, .inr hfails.not_willOpen⟩,
      fun _ => ⟨0, 0, _, hwrite 0 buf, rfl, fun hall => ?_⟩⟩
    have hnil : buf = [] := List.length_eq_zero_iff.mp (by simpa [tried] using hall)
    rw [hnil, List.append_nil]
    rfl
  · rw [delivers_of_send hwrite rfl rfl]
    refine ⟨.inr, fun h => h.resolve_left ?_⟩
    rintro ⟨-, hnil | hnot⟩
    · exact hname hnil
    · exact hnot ⟨k, fd, hopens⟩
  · rw [delivers_of_send hwrite rfl rfl]
    refine ⟨.inr, fun h => h.resolve_left fun hneg => ?_⟩
    exact absurd hneg.1 (Int.not_lt.mpr hfd)

/-- A full disk: from the first call on the buffer has no room. -/
def fullDisk : OutputEnv := ⟨fun _ => .opened 3, fun _ => 0⟩

/-- One byte is never written to a full disk: the loop does not end, with the lock held. -/
theorem full_disk_not_delivers :
    ∃ o, newNamed [97] = .ok o ∧ ¬Delivers fullDisk [97] o := by
  refine ⟨⟨[97], -1, false, 0, 0, []⟩, rfl, ?_⟩
  have hsend : ∀ fuel buf, writeb fullDisk fuel buf ⟨[97], -1, false, 0, 0, []⟩ =
      send fullDisk fuel buf ⟨[97], 3, true, 1, 0, []⟩ := fun fuel buf => rfl
  rw [delivers_of_send hsend rfl rfl]
  rintro ⟨n, hn⟩
  have hroom : roomFor fullDisk ⟨[97], -1, false, 0, 0, []⟩ n = 0 := by simp [roomFor, fullDisk]
  rw [hroom] at hn
  exact absurd hn (by decide)

/-! ### The name

A call can set the name, add letters to it while the file is opened, or leave it. Nothing else
ever happens to it. -/

/-- The name that a call gives to a stream without a name. -/
def acceptedName : OutputCall → Option (List UInt8)
  | .setFileName name =>
    if name ≠ [] ∧ name.length < nameBufferSize - 1 then some name else none
  | .writeb _ => none
  | .writef _ => none

/-- The first name that a stream accepts. -/
def firstName (calls : List OutputCall) : Option (List UInt8) := calls.findSome? acceptedName

/-- What a call does to the name and to the descriptor. -/
inductive NameStep (env : OutputEnv) (o o' : NamedOutput) : Option (List UInt8) → Prop
  | kept {accepted : Option (List UInt8)} :
      (o.fileName = [] → accepted = none) → o'.fileName = o.fileName → o'.fd = o.fd →
      NameStep env o o' accepted
  | named {name : List UInt8} :
      o.fileName = [] → name ≠ [] → name.length < nameBufferSize - 1 → o'.fileName = name →
      o'.fd = o.fd → NameStep env o o' (some name)
  | tried {k : Nat} :
      o.fd < 0 → o.fileName ≠ [] → Exist env o k →
      o'.fileName = o.fileName ++ List.replicate k 102 → NameStep env o o' none

/-- `setFileName` sets a name of fitting length, once. -/
theorem setFileName_nameStep {name : List UInt8} {set : Bool}
    (h : o.setFileName name = .ok (set, o')) :
    NameStep env o o' (acceptedName (.setFileName name)) := by
  unfold setFileName at h
  split_ifs at h with hset hlong
  · cases h
    exact .kept (fun hnil => absurd hset (by simp [hnil])) rfl rfl
  · cases h
    refine .kept (fun _ => ?_) rfl rfl
    rw [acceptedName, if_neg fun hok => Nat.not_lt_of_le hlong hok.2]
  · have hnil : o.fileName = [] := List.length_eq_zero_iff.mp (by omega)
    have hfits : name.length < nameBufferSize := by omega
    rw [storeName, if_pos hfits] at h
    cases h
    by_cases hname : name = []
    · subst hname
      exact .kept (fun _ => rfl) hnil.symm rfl
    · rw [acceptedName, if_pos ⟨hname, Nat.lt_of_not_le hlong⟩]
      exact .named hnil hname (Nat.lt_of_not_le hlong) rfl rfl

/-- Sending has nothing to do with the name. -/
theorem send_frame {ret : Int} (h : o.send env fuel buf = .ok (ret, o')) :
    o'.fileName = o.fileName ∧ o'.fd = o.fd := by
  obtain ⟨-, o₁, hloop, rfl⟩ := send_eq_ok.mp h
  have hsent := sendLoop_sent hloop
  exact ⟨hsent.fileName, hsent.fd⟩

/-- A write may open the file, and adds letters to the name then. -/
theorem writeb_nameStep {ret : Int} (h : o.writeb env fuel buf = .ok (ret, o')) :
    NameStep env o o' none := by
  rcases writeb_cases env o with ⟨-, -, hwrite⟩ | ⟨hfd, hname, k, hfails, hwrite⟩ |
    ⟨hfd, hname, k, fd, hopens, hwrite⟩ | ⟨-, hwrite⟩
  · rw [hwrite] at h
    cases h
    exact .kept (fun _ => rfl) rfl rfl
  · rw [hwrite] at h
    cases h
    exact .tried hfd hname hfails.1 rfl
  · rw [hwrite] at h
    exact .tried hfd hname hopens.1 (send_frame h).1
  · rw [hwrite] at h
    obtain ⟨hname, hfd⟩ := send_frame h
    exact .kept (fun _ => rfl) hname hfd

/-- A text that fits the local buffer is written. -/
theorem writef_eq {text : List UInt8} (h : text.length < localBufferSize) :
    o.writef env fuel text = o.writeb env fuel text := if_pos h

/-- A text that does not fit fails the assertion. -/
theorem writef_error {text : List UInt8} (h : ¬text.length < localBufferSize) :
    o.writef env fuel text = .error .assertion := if_neg h

/-- Every call is a step of the name. -/
theorem step_nameStep {call : OutputCall} (h : o.step env fuel call = .ok o') :
    NameStep env o o' (acceptedName call) := by
  cases call with
  | setFileName name =>
      obtain ⟨⟨set, o₁⟩, hcall, rfl⟩ := map_eq_ok.mp h
      exact setFileName_nameStep hcall
  | writeb buf =>
      obtain ⟨⟨ret, o₁⟩, hcall, rfl⟩ := map_eq_ok.mp h
      exact writeb_nameStep hcall
  | writef text =>
      obtain ⟨⟨ret, o₁⟩, hcall, rfl⟩ := map_eq_ok.mp h
      by_cases hfits : text.length < localBufferSize
      · rw [writef_eq hfits] at hcall
        exact writeb_nameStep hcall
      · rw [writef_error hfits] at hcall
        cases hcall

/-- The stream has the name that was accepted, with letters behind it, and a file only under
that name. -/
structure HasName (accepted : Option (List UInt8)) (o : NamedOutput) : Prop where
  none : accepted = none → o.fileName = []
  some : ∀ name, accepted = some name →
    name ≠ [] ∧ ∃ k, o.fileName = name ++ List.replicate k 102
  length_le : o.fileName.length ≤ nameBufferSize - 1
  opened : 0 ≤ o.fd → o.fileName ≠ []

namespace HasName

variable {accepted given : Option (List UInt8)}

/-- A stream without a name was given none. -/
theorem accepted_eq_none (h : HasName accepted o) (hnil : o.fileName = []) : accepted = .none := by
  cases accepted with
  | none => rfl
  | some name =>
      obtain ⟨hne, k, hname⟩ := h.some name rfl
      rw [hname] at hnil
      exact absurd (List.append_eq_nil_iff.mp hnil).1 hne

/-- What a call preserves. -/
theorem step (h : HasName accepted o) (hstep : NameStep env o o' given) :
    HasName (accepted.or given) o' := by
  cases hstep with
  | kept hnone hname hfd =>
      -- a second name is not taken, and a first one only if it fits
      refine ⟨?_, ?_, hname ▸ h.length_le, hname ▸ hfd ▸ h.opened⟩
      · intro hor
        rw [hname]
        exact h.none (Option.or_eq_none_iff.mp hor).1
      · intro name hor
        rw [hname]
        by_cases hnil : o.fileName = []
        · rw [h.accepted_eq_none hnil, hnone hnil] at hor
          cases hor
        · cases accepted with
          | none => exact absurd (h.none rfl) hnil
          | some first => exact h.some name hor
  | named hnil hne hlt hname hfd =>
      rw [h.accepted_eq_none hnil, Option.none_or]
      refine ⟨fun hnone => (by cases hnone), ?_, ?_, fun _ => hname ▸ hne⟩
      · rintro name ⟨⟩
        exact ⟨hne, 0, by rw [hname, List.replicate_zero, List.append_nil]⟩
      · rw [hname]
        exact Nat.le_of_lt hlt
  | @tried k hfd hne hexist hname =>
      rw [Option.or_none]
      refine ⟨fun hnone => absurd (h.none hnone) hne, ?_, ?_, ?_⟩
      · intro name hsome
        obtain ⟨hname₀, k₀, hk₀⟩ := h.some name hsome
        refine ⟨hname₀, k₀ + k, ?_⟩
        rw [hname, hk₀, List.append_assoc, List.replicate_append_replicate]
      · -- the last letter was added with room for it
        rw [hname, List.length_append, List.length_replicate]
        cases k with
        | zero => exact h.length_le
        | succ k =>
            have hroom := (hexist k (Nat.lt_succ_self k)).1
            omega
      · intro _ hnil
        rw [hname] at hnil
        exact hne (List.append_eq_nil_iff.mp hnil).1

end HasName

/-- A new stream has no name. -/
theorem hasName_new : HasName none new :=
  ⟨fun _ => rfl, fun _ h => (by cases h), Nat.zero_le _, fun h => absurd h (by decide)⟩

/-- The first name is that of the first call that has one which fits. -/
theorem firstName_cons (call : OutputCall) (calls : List OutputCall) :
    firstName (call :: calls) = (acceptedName call).or (firstName calls) := by
  unfold firstName
  rw [List.findSome?_cons]
  cases acceptedName call <;> rfl

/-- A run is its first call and the rest. -/
theorem run_cons (call : OutputCall) (calls : List OutputCall) :
    run env fuel (call :: calls) o = o.step env fuel call >>= fun o => run env fuel calls o := by
  unfold run
  rw [List.foldlM_cons]

/-- What a sequence of calls preserves. -/
theorem HasName.run {accepted : Option (List UInt8)} {calls : List OutputCall}
    (h : HasName accepted o) (hrun : NamedOutput.run env fuel calls o = .ok o') :
    HasName (accepted.or (firstName calls)) o' := by
  induction calls generalizing o accepted with
  | nil =>
      cases hrun
      rw [firstName, List.findSome?_nil, Option.or_none]
      exact h
  | cons call calls ih =>
      rw [run_cons] at hrun
      obtain ⟨o₁, hstep, hrun⟩ := bind_eq_ok.mp hrun
      rw [firstName_cons, ← Option.or_assoc]
      exact ih (h.step (step_nameStep hstep)) hrun

/-- With an open file the name and the descriptor stay. -/
theorem run_opened {accepted : Option (List UInt8)} {calls : List OutputCall}
    (h : HasName accepted o) (hfd : 0 ≤ o.fd)
    (hrun : NamedOutput.run env fuel calls o = .ok o') :
    o'.fileName = o.fileName ∧ o'.fd = o.fd := by
  induction calls generalizing o accepted with
  | nil =>
      cases hrun
      exact ⟨rfl, rfl⟩
  | cons call calls ih =>
      rw [run_cons] at hrun
      obtain ⟨o₁, hstep, hrun⟩ := bind_eq_ok.mp hrun
      have hname := step_nameStep hstep
      have hkept : o₁.fileName = o.fileName ∧ o₁.fd = o.fd := by
        generalize acceptedName call = given at hname
        cases hname with
        | kept _ hname hfd => exact ⟨hname, hfd⟩
        | named hnil _ _ _ _ => exact absurd hnil (h.opened hfd)
        | tried hneg _ _ _ => exact absurd hfd (Int.not_le.mpr hneg)
      obtain ⟨hname', hfd'⟩ := ih (h.step hname) (hkept.2 ▸ hfd) hrun
      exact ⟨hname'.trans hkept.1, hfd'.trans hkept.2⟩

/-! ### The buffer of the name

No sequence of calls writes behind the buffer, as `HasName` has the length of the name in it. -/

/-- `setFileName` always returns. -/
theorem setFileName_ok (name : List UInt8) (o : NamedOutput) :
    ∃ r, o.setFileName name = .ok r := by
  unfold setFileName
  split_ifs with hset hlong
  · exact ⟨_, rfl⟩
  · exact ⟨_, rfl⟩
  · rw [storeName, if_pos (by omega)]
    exact ⟨_, rfl⟩

/-- A send can only fail to end. -/
theorem send_error {e : OutputFault} (h : o.send env fuel buf = .error e) : e = .outOfFuel := by
  unfold send at h
  cases hloop : sendLoop env buf (toInt32 buf.length) fuel 0 o with
  | ok o₁ =>
      simp only [hloop] at h
      cases h
  | error e' =>
      simp only [hloop] at h
      cases h
      exact sendLoop_error hloop

/-- A write can only fail to end; it never overruns the buffer of the name. -/
theorem writeb_error {e : OutputFault} (h : o.writeb env fuel buf = .error e) :
    e = .outOfFuel := by
  rcases writeb_cases env o with ⟨-, -, hwrite⟩ | ⟨-, -, k, -, hwrite⟩ |
    ⟨-, -, k, fd, -, hwrite⟩ | ⟨-, hwrite⟩
  · rw [hwrite] at h
    cases h
  · rw [hwrite] at h
    cases h
  · rw [hwrite] at h
    exact send_error h
  · rw [hwrite] at h
    exact send_error h

/-- No call writes behind the buffer. -/
theorem step_ne_overrun (call : OutputCall) : o.step env fuel call ≠ .error .overrun := by
  intro h
  cases call with
  | setFileName name =>
      obtain ⟨r, hr⟩ := setFileName_ok name o
      have herror := map_eq_error.mp h
      rw [hr] at herror
      cases herror
  | writeb buf => cases writeb_error (map_eq_error.mp h)
  | writef text =>
      have herror := map_eq_error.mp h
      by_cases hfits : text.length < localBufferSize
      · rw [writef_eq hfits] at herror
        cases writeb_error herror
      · rw [writef_error hfits] at herror
        cases herror

/-- No sequence of calls writes behind the buffer. -/
theorem run_ne_overrun (calls : List OutputCall) :
    NamedOutput.run env fuel calls o ≠ .error .overrun := by
  induction calls generalizing o with
  | nil => exact fun h => by cases h
  | cons call calls ih =>
      rw [run_cons]
      cases hstep : o.step env fuel call with
      | ok o₁ => exact ih
      | error e =>
          intro h
          cases h
          exact step_ne_overrun call hstep

/-- `_openFile` on a stream with a name calls `open` at most 255 times. -/
theorem openFile_calls (hname : o.fileName ≠ []) :
    ∃ opened o', o.openFile env = .ok (opened, o') ∧ o'.openCalls ≤ o.openCalls + 255 := by
  -- each name that was taken already is one letter longer than the one before
  have hbound (k : Nat) (fd : Int) (h : Exist env o k) :
      (o.tried k fd).openCalls ≤ o.openCalls + 255 := by
    have hpositive := List.length_pos_of_ne_nil hname
    simp only [tried]
    cases k with
    | zero => omega
    | succ k =>
        have hroom := (h k (Nat.lt_succ_self k)).1
        simp only [nameBufferSize] at hroom
        omega
  rcases Int.lt_or_le o.fd 0 with hfd | hfd
  · rcases openFile_spec env hfd with ⟨k, fd, hopen, h⟩ | ⟨k, hopen, h⟩
    · exact ⟨true, _, hopen, hbound k fd h.1⟩
    · exact ⟨false, _, hopen, hbound k o.fd h.1⟩
  · exact ⟨true, o, if_pos hfd, Nat.le_add_right _ _⟩

/-- A stream as it is constructed, with a name or without. -/
def construct : Option (List UInt8) → Except OutputFault NamedOutput
  | none => .ok new
  | some fileName => newNamed fileName

/-- The constructor with a name sets it. -/
theorem newNamed_cases (env : OutputEnv) (fuel : Nat) (fileName : List UInt8) :
    newNamed fileName = .error .assertion ∨
      ∃ o, newNamed fileName = .ok o ∧ new.step env fuel (.setFileName fileName) = .ok o := by
  obtain ⟨⟨set, o⟩, hset⟩ := setFileName_ok fileName new
  rw [newNamed, step, hset]
  cases set with
  | false => exact .inl rfl
  | true => exact .inr ⟨o, rfl, rfl⟩

/-- A constructor and calls, as calls on a new stream. -/
theorem construct_run (env : OutputEnv) (fuel : Nat) (arg : Option (List UInt8))
    (calls : List OutputCall) :
    (construct arg >>= fun o => NamedOutput.run env fuel calls o) = .error .assertion ∨
      (construct arg >>= fun o => NamedOutput.run env fuel calls o) =
        NamedOutput.run env fuel (arg.toList.map .setFileName ++ calls) new := by
  cases arg with
  | none => exact .inr rfl
  | some fileName =>
      rcases newNamed_cases env fuel fileName with herror | ⟨o, hnew, hstep⟩
      · refine .inl ?_
        rw [construct, herror]
        rfl
      · refine .inr ?_
        rw [construct, hnew, ok_bind, Option.toList_some, List.map_singleton,
          List.singleton_append, run_cons, hstep, ok_bind]

/-- **The name of a stream.** Whatever `open` returns, no sequence of calls on a stream writes
behind the buffer of its name. The name is empty, or it is the first one that was accepted
with letters behind it; `_openFile` calls `open` at most 255 times; and the name and the
descriptor of an open file stay. -/
theorem output_name (env : OutputEnv) (fuel : Nat) (arg : Option (List UInt8))
    (calls : List OutputCall) :
    (construct arg >>= fun o => NamedOutput.run env fuel calls o) ≠ .error .overrun ∧
      ∀ o, (construct arg >>= fun o => NamedOutput.run env fuel calls o) = .ok o →
        o.fileName.length ≤ nameBufferSize - 1 ∧
        (o.fileName = [] ∨ ∃ name k, firstName (arg.toList.map .setFileName ++ calls) = some name ∧
          o.fileName = name ++ List.replicate k 102) ∧
        (o.fileName ≠ [] →
          ∃ opened o', o.openFile env = .ok (opened, o') ∧ o'.openCalls ≤ o.openCalls + 255) ∧
        (0 ≤ o.fd → ∀ later o', NamedOutput.run env fuel later o = .ok o' →
          o'.fileName = o.fileName ∧ o'.fd = o.fd) := by
  rcases construct_run env fuel arg calls with hrun | hrun
  · rw [hrun]
    exact ⟨fun h => (by cases h), fun o h => (by cases h)⟩
  · rw [hrun]
    refine ⟨run_ne_overrun _, fun o ho => ?_⟩
    have hname := hasName_new.run ho
    rw [Option.none_or] at hname
    refine ⟨hname.length_le, ?_, openFile_calls, fun hfd later o' => run_opened hname hfd⟩
    cases hfirst : firstName (arg.toList.map .setFileName ++ calls) with
    | none => exact .inl (hname.none hfirst)
    | some name =>
        obtain ⟨-, k, hk⟩ := hname.some name hfirst
        exact .inr ⟨name, k, rfl, hk⟩

/-- A name that is taken once, and a second name that comes too late. -/
theorem output_name_taken :
    ∃ o k, new.run ⟨fun i => if i = 0 then .eexist else .opened 3, fun _ => 1⟩ 2
        [.setFileName [97], .writeb [98, 99], .setFileName [100]] = .ok o ∧
      o.fileName = [97] ++ List.replicate k 102 ∧ o.taken = [98, 99] := by
  obtain ⟨-, hname, -, -⟩ :=
    (output_name ⟨fun i => if i = 0 then .eexist else .opened 3, fun _ => 1⟩ 2
      none [.setFileName [97], .writeb [98, 99], .setFileName [100]]).2
      ⟨[97, 102], 3, false, 2, 2, [98, 99]⟩ rfl
  rcases hname with hnil | ⟨name, k, hfirst, hk⟩
  · cases hnil
  · cases hfirst
    exact ⟨_, k, rfl, hk, rfl⟩

/-! ### Streams that write without failures

The `Output` of the other modules is this stream in a world without failures: its pieces, as
texts, are the bytes that were handed over. -/

/-- A surrogate, the code unit `0xD800 + n`, in three bytes. -/
def encodeSurrogate (n : Nat) : List UInt8 :=
  [0xED, UInt8.ofNat (0xA0 + n / 64), UInt8.ofNat (0x80 + n % 64)]

/-- A character in modified UTF-8. -/
def encodeChar (c : Char) : List UInt8 :=
  if c = '\x00' then [0xC0, 0x80]
  else if 0x10000 ≤ c.toNat then
    encodeSurrogate ((c.toNat - 0x10000) / 1024) ++
      encodeSurrogate (1024 + (c.toNat - 0x10000) % 1024)
  else String.utf8EncodeChar c

/-- As many bytes as the size of the character says. -/
theorem length_encodeChar (c : Char) : (encodeChar c).length = Text.charSize c := by
  unfold encodeChar Text.charSize
  split
  · rfl
  · split
    · rfl
    · exact String.length_utf8EncodeChar c

example : encodeChar (Char.ofNat 0x1F600) = [0xED, 0xA0, 0xBD, 0xED, 0xB8, 0x80] := by decide

/-- The bytes of a text, encoded as the virtual machine hands over names. -/
def mutf8 (s : List Char) : List UInt8 := s.flatMap encodeChar

/-- A text has as many bytes as its size says. -/
theorem length_mutf8 (s : List Char) : (mutf8 s).length = Text.byteSize s := by
  induction s with
  | nil => rfl
  | cons c s ih =>
      rw [mutf8, List.flatMap_cons, List.length_append, length_encodeChar,
        Text.byteSize_cons, ← ih]
      rfl

/-- Texts are encoded one after another. -/
theorem mutf8_append (s t : List Char) : mutf8 (s ++ t) = mutf8 s ++ mutf8 t :=
  List.flatMap_append

/-- **A reader of UTF-8 sees the text** that was written, if it has no U+0000 and nothing
beyond U+FFFF: on all other characters the two encodings agree. -/
theorem mutf8_eq_utf8 {s : List Char} (h : ∀ c ∈ s, c ≠ '\x00' ∧ c.toNat < 0x10000) :
    mutf8 s = s.flatMap String.utf8EncodeChar := by
  induction s with
  | nil => rfl
  | cons c s ih =>
      obtain ⟨⟨hzero, hlow⟩, hs⟩ := List.forall_mem_cons.mp h
      have hc : encodeChar c = String.utf8EncodeChar c := by
        rw [encodeChar, if_neg hzero, if_neg (Nat.not_le.mpr hlow)]
      rw [List.flatMap_cons, ← hc, ← ih hs]
      rfl

/-- A stream as an `Output` has it. -/
structure Represents (s : Output) (o : NamedOutput) : Prop where
  fileName : o.fileName = mutf8 s.fileName
  isOpen : s.isOpen = true ↔ 0 ≤ o.fd
  taken : o.taken = mutf8 s.text

/-- New files can be opened, and the buffer takes what it is given. -/
def faultless : OutputEnv := ⟨fun _ => .opened 3, fun _ => 2 ^ 31⟩

/-- A new stream is represented by a new `Output`. -/
theorem represents_new : Represents Output.new new :=
  ⟨rfl, by simp [Output.new, new], rfl⟩

/-- Setting the name succeeds on both sides or on neither. -/
theorem Represents.setFileName {s : Output} (h : Represents s o) (fileName : List Char) :
    ∃ o', o.setFileName (mutf8 fileName) = .ok ((s.setFileName fileName).1, o') ∧
      Represents (s.setFileName fileName).2 o' := by
  have hlength : o.fileName.length = Text.byteSize s.fileName := by rw [h.fileName, length_mutf8]
  unfold NamedOutput.setFileName Output.setFileName
  rw [hlength, length_mutf8]
  split_ifs with hset hlong
  · exact ⟨o, rfl, h⟩
  · exact ⟨o, rfl, h⟩
  · rw [storeName, if_pos (by rw [length_mutf8]; omega)]
    exact ⟨_, rfl, rfl, h.isOpen, h.taken⟩

/-- One call takes a whole piece. -/
theorem send_faultless (hsize : buf.length < 2 ^ 31) :
    ∃ ret o', o.send faultless 1 buf = .ok (ret, o') ∧ o'.fileName = o.fileName ∧
      o'.fd = o.fd ∧ o'.taken = o.taken ++ buf := by
  have hdata := toInt32_of_lt hsize
  have hroom : roomFor faultless o 1 = 2 ^ 31 := by simp [roomFor, faultless]
  have henough : toInt32 buf.length ≤ (0 : Nat) + roomFor faultless o 1 := by
    rw [hdata, hroom]
    omega
  obtain ⟨o₁, hloop⟩ := sendLoop_returns.mpr ⟨1, Nat.le_refl 1, henough⟩
  have hsent := sendLoop_sent hloop
  refine ⟨_, _, send_eq_ok.mpr ⟨rfl, o₁, hloop, rfl⟩, hsent.fileName, hsent.fd, ?_⟩
  have htaken := hsent.taken
  rw [List.drop_zero, hdata, Int.toNat_natCast, Nat.sub_zero, List.take_length] at htaken
  exact htaken

/-- A piece written through `writeb` is a piece of the `Output`. -/
theorem Represents.writeb {s : Output} (h : Represents s o) (data : Fragment)
    (hsize : Text.byteSize data.print < 2 ^ 31) :
    ∃ ret o', o.writeb faultless 1 (mutf8 data.print) = .ok (ret, o') ∧
      Represents (s.writeb data) o' := by
  rw [← length_mutf8] at hsize
  have hlength : o.fileName.length = Text.byteSize s.fileName := by rw [h.fileName, length_mutf8]
  -- a piece more in the text is its bytes at the end
  have htext (written : List Fragment) (isOpen : Bool) (hwritten : written = s.written ++ [data]) :
      Output.text ⟨s.fileName, isOpen, written⟩ = s.text ++ data.print := by
    rw [Output.text, hwritten, List.flatMap_append, List.flatMap_singleton]
    rfl
  rcases writeb_cases faultless o with ⟨hfd, hnil, hwrite⟩ | ⟨-, -, k, hfails, -⟩ |
    ⟨hfd, hne, k, fd, hopens, hwrite⟩ | ⟨hfd, hwrite⟩
  · have hclosed : s.isOpen ≠ true := fun hopen => absurd (h.isOpen.mp hopen) (by omega)
    have hsame : s.writeb data = s := by
      rw [Output.writeb, if_neg hclosed, if_pos (by rw [← hlength, hnil]; rfl)]
    rw [hsame]
    exact ⟨0, _, hwrite _ _, h.fileName, h.isOpen, h.taken⟩
  · rcases hfails.2 with hfailed | ⟨-, hfailed⟩
    · cases hfailed
    · cases hfailed
  · -- the first call of `open` succeeds
    have hzero : k = 0 := by
      cases k with
      | zero => rfl
      | succ k => cases (hopens.1 0 (Nat.succ_pos k)).2
    have hclosed : s.isOpen ≠ true := fun hopen => absurd (h.isOpen.mp hopen) (by omega)
    have hset : Text.byteSize s.fileName ≠ 0 := by
      rw [← hlength]
      exact fun hzero => hne (List.length_eq_zero_iff.mp hzero)
    obtain ⟨ret, o', hsend, hname', hfd', htaken'⟩ :=
      send_faultless (o := { o.tried k fd with locked := true }) hsize
    refine ⟨ret, o', (hwrite _ _).trans hsend, ?_⟩
    rw [Output.writeb, if_neg hclosed, if_neg hset]
    refine ⟨?_, ?_, ?_⟩
    · rw [hname']
      subst hzero
      simp [tried, h.fileName]
    · simp [hfd', tried]
    · rw [htaken', htext _ _ rfl, mutf8_append, ← h.taken]
      rfl
  · have hopen : s.isOpen = true := h.isOpen.mpr hfd
    obtain ⟨ret, o', hsend, hname', hfd', htaken'⟩ :=
      send_faultless (o := { o with locked := true }) hsize
    refine ⟨ret, o', (hwrite _ _).trans hsend, ?_⟩
    rw [Output.writeb, if_pos hopen]
    refine ⟨hname'.trans h.fileName, ?_, ?_⟩
    · rw [hfd']
      exact h.isOpen
    · have hcons : ({ s with written := s.written ++ [data] } : Output).text = s.text ++ data.print :=
        htext _ s.isOpen rfl
      rw [htaken', hcons, mutf8_append, ← h.taken]

end NamedOutput

end DroidPerf
