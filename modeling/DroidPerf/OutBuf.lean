import DroidPerf.NamedOutput

/-!
# DroidPerf.OutBuf

The buffer behind an output stream (`hpcio-buffer.c` of the HPCToolkit library, which the agent
is built with), and an `OUTPUT` that writes through it (`io.cpp`).

* The memory of a buffer is split where `in_use` points: `held` are the bytes in front, `rest`
  those behind. The two together are always `buf_size` bytes.
* The agent attaches its buffers with `HPCIO_OUTBUF_UNLOCKED`, so `use_lock` is never set and
  the branches on it are left out.
* What `write` and `close` return is given by `OutbufEnv`, one result after another.

The loop of a flush has fuel, since a `write` can be interrupted any number of times. The loop
of a write copies a byte in every round and has as many rounds as there are bytes.
-/

namespace DroidPerf

/-- What `write` returns: a number of bytes, at most as many as it was given; 0 with `EINTR`;
or -1, whatever `errno` is. -/
inductive WriteOutcome where
  | wrote (room : Nat)
  | interrupted
  | failed
  deriving DecidableEq, Repr

/-- The results of the calls of `open` and `write` in their order, and what `close` returns. -/
structure OutbufEnv where
  opens : Nat → OpenOutcome
  writes : Nat → WriteOutcome
  closes : Bool

/-- `HPCIO_OUTBUF_MAGIC`. -/
def hpcioOutbufMagic : Nat := 0x494F4246

/-- `PRINT_BUFFER_SIZE`. -/
def printBufferSize : Nat := 1024

/-- `hpcio_outbuf_t`. -/
structure HpcioOutbuf where
  magic : Nat
  held : List UInt8
  rest : List UInt8
  fd : Int
  deriving DecidableEq, Repr

namespace HpcioOutbuf

/-- `in_use`. -/
def inUse (b : HpcioOutbuf) : Nat := b.held.length

/-- `buf_size`. -/
def bufSize (b : HpcioOutbuf) : Nat := b.held.length + b.rest.length

/-- The memory with `in_use` set to `n`. -/
def setInUse (n : Nat) (b : HpcioOutbuf) : HpcioOutbuf :=
  { b with held := (b.held ++ b.rest).take n, rest := (b.held ++ b.rest).drop n }

/-- `memmove` of the bytes behind the first `n` ones in use to the start. -/
def moveDown (n : Nat) (b : HpcioOutbuf) : HpcioOutbuf :=
  { b with held := b.held.drop n ++ b.held.drop (b.inUse - n) }

/-- `memcpy` behind the bytes in use, which grow by the data. -/
def copyIn (data : List UInt8) (b : HpcioOutbuf) : HpcioOutbuf :=
  { b with held := b.held ++ data, rest := b.rest.drop data.length }

end HpcioOutbuf

/-- A buffer and the file behind its descriptor. For each flush that failed, `failures` has
the number of bytes it wrote and the number it had to write. -/
structure OutbufFile where
  outbuf : HpcioOutbuf
  file : List UInt8
  writeCalls : Nat
  failures : List (Nat × Nat)
  deriving DecidableEq, Repr

/-- The hard failure of a flush after `amtDone` bytes. -/
def failFlush (amtDone : Nat) (o : OutbufFile) : OutbufFile :=
  { o with
    outbuf :=
      if 0 < amtDone then (o.outbuf.moveDown amtDone).setInUse amtDone else o.outbuf
    failures := o.failures ++ [(amtDone, o.outbuf.inUse)] }

/-- The loop of `outbuf_flush_buffer`. -/
def flushLoop (env : OutbufEnv) : Nat → Nat → OutbufFile → Except OutputFault (Bool × OutbufFile)
  | fuel, amtDone, o =>
    if amtDone < o.outbuf.inUse then
      match fuel with
      | 0 => .error .outOfFuel
      | fuel + 1 =>
        let called := { o with writeCalls := o.writeCalls + 1 }
        match env.writes o.writeCalls with
        | .interrupted => flushLoop env fuel amtDone called
        | .failed => .ok (false, failFlush amtDone called)
        | .wrote room =>
          let ret := min room (o.outbuf.inUse - amtDone)
          if 0 < ret then
            flushLoop env fuel (amtDone + ret)
              { called with file := o.file ++ (o.outbuf.held.drop amtDone).take ret }
          else .ok (false, failFlush amtDone called)
    else .ok (true, { o with outbuf := o.outbuf.setInUse 0 })

/-- `outbuf_flush_buffer`. -/
def outbufFlushBuffer (env : OutbufEnv) (fuel : Nat) (o : OutbufFile) :
    Except OutputFault (Bool × OutbufFile) :=
  flushLoop env fuel 0 o

/-- `hpcio_outbuf_attach`, with the memory at `buf_start`; `none` is `HPCFMT_ERR`. -/
def hpcioOutbufAttach (fd : Int) (bufStart : List UInt8) : Option HpcioOutbuf :=
  if fd < 0 ∨ bufStart.length = 0 then none else some ⟨hpcioOutbufMagic, [], bufStart, fd⟩

/-- The loop of `hpcio_outbuf_write`, with `amtDone` bytes of the data copied. Every round
copies a byte, so there are no more rounds than bytes. -/
def copyLoop (env : OutbufEnv) (fuel : Nat) (data : List UInt8) :
    Nat → Nat → OutbufFile → Except OutputFault (Nat × OutbufFile)
  | rounds, amtDone, o =>
    if amtDone < data.length then
      match rounds with
      | 0 => .error .outOfFuel
      | rounds + 1 => do
        let flush := decide (o.outbuf.bufSize - o.outbuf.inUse < data.length)
        let o ← (if flush then (outbufFlushBuffer env fuel o).map Prod.snd else .ok o)
        if flush ∧ o.outbuf.inUse = o.outbuf.bufSize then return (amtDone, o)
        else
          let amt := min (data.length - amtDone) (o.outbuf.bufSize - o.outbuf.inUse)
          copyLoop env fuel data rounds (amtDone + amt)
            { o with outbuf := o.outbuf.copyIn ((data.drop amtDone).take amt) }
    else .ok (amtDone, o)

/-- `hpcio_outbuf_write`. -/
def hpcioOutbufWrite (env : OutbufEnv) (fuel : Nat) (data : List UInt8) (o : OutbufFile) :
    Except OutputFault (Int × OutbufFile) :=
  if o.outbuf.magic ≠ hpcioOutbufMagic then .ok (-1, o)
  else do
    let (amtDone, o) ← copyLoop env fuel data data.length 0 o
    return ((amtDone : Int), o)

/-- `hpcio_outbuf_flush`; `false` is `HPCFMT_ERR`. -/
def hpcioOutbufFlush (env : OutbufEnv) (fuel : Nat) (o : OutbufFile) :
    Except OutputFault (Bool × OutbufFile) :=
  if o.outbuf.magic ≠ hpcioOutbufMagic then .ok (false, o) else outbufFlushBuffer env fuel o

/-- `hpcio_outbuf_close`; `false` is `HPCFMT_ERR`. -/
def hpcioOutbufClose (env : OutbufEnv) (fuel : Nat) (o : OutbufFile) :
    Except OutputFault (Bool × OutbufFile) :=
  if o.outbuf.magic ≠ hpcioOutbufMagic then .ok (false, o)
  else do
    let (flushed, o) ← outbufFlushBuffer env fuel o
    if flushed ∧ env.closes then
      return (true, { o with outbuf := { o.outbuf with magic := 0, fd := -1 } })
    else return (false, o)

/-- A call on a buffer. -/
inductive OutbufCall where
  | write (data : List UInt8)
  | flush
  | close
  deriving DecidableEq, Repr

/-- One call, with the bytes it takes. -/
def OutbufFile.step (env : OutbufEnv) (fuel : Nat) (o : OutbufFile) :
    OutbufCall → Except OutputFault (List UInt8 × OutbufFile)
  | .write data =>
    (hpcioOutbufWrite env fuel data o).map fun (ret, o) => (data.take ret.toNat, o)
  | .flush => (hpcioOutbufFlush env fuel o).map fun (_, o) => ([], o)
  | .close => (hpcioOutbufClose env fuel o).map fun (_, o) => ([], o)

/-- Several calls, with the bytes they take. -/
def OutbufFile.run (env : OutbufEnv) (fuel : Nat) :
    List OutbufCall → OutbufFile → Except OutputFault (List UInt8 × OutbufFile)
  | [], o => .ok ([], o)
  | call :: calls, o => do
    let (taken, o) ← o.step env fuel call
    let (takenRest, o) ← OutbufFile.run env fuel calls o
    return (taken ++ takenRest, o)

/-- A buffer that has just been attached, to a new file. -/
def OutbufFile.attached (outbuf : HpcioOutbuf) : OutbufFile := ⟨outbuf, [], 0, []⟩

end DroidPerf
