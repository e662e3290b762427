import DroidPerf.Io

/-!
# DroidPerf.NamedOutput

An output stream and the file behind it (`io.cpp`): the name in its buffer, the calls of `open`
until a new file is created, and the calls of `hpcio_outbuf_write` until a piece is written.

A C string is the list of its bytes, without the NUL at its end. What the calls return is given
by `OutputEnv`, one result after another. Both loops are given fuel: that of `_openFile` needs
no more than the name buffer has bytes, that of `writeb` as much as the writes take.
-/

namespace DroidPerf

/-- What `open` returns: a descriptor, or -1 with `EEXIST` or with another error. -/
inductive OpenOutcome where
  | opened (fd : Nat)
  | eexist
  | failed
  deriving DecidableEq, Repr

/-- The results of the calls of `open` and `hpcio_outbuf_write` in their order. A write takes
as many bytes as it is given and as it has room for. -/
structure OutputEnv where
  opens : Nat → OpenOutcome
  room : Nat → Nat

/-- Why a call on a stream does not return. -/
inductive OutputFault where
  /-- A failed `assert`. -/
  | assertion
  /-- A name that is longer than `_file_name`. -/
  | overrun
  /-- The bound on the rounds of a loop is used up; an artefact of the model. -/
  | outOfFuel
  deriving DecidableEq, Repr

/-- `class OUTPUT`, with the number of calls made for it and the bytes that
`hpcio_outbuf_write` has taken. -/
structure NamedOutput where
  fileName : List UInt8
  fd : Int
  locked : Bool
  openCalls : Nat
  writeCalls : Nat
  taken : List UInt8
  deriving DecidableEq, Repr

namespace NamedOutput

/-- `OUTPUT::OUTPUT()`. -/
def new : NamedOutput := ⟨[], -1, false, 0, 0, []⟩

/-- `strcpy` and `strcat` to `_file_name`: the name as it is afterwards. -/
def storeName (name : List UInt8) (o : NamedOutput) : Except OutputFault NamedOutput :=
  if name.length < nameBufferSize then .ok { o with fileName := name } else .error .overrun

/-- `OUTPUT::setFileName`. -/
def setFileName (fileName : List UInt8) (o : NamedOutput) :
    Except OutputFault (Bool × NamedOutput) :=
  if 0 < o.fileName.length then .ok (false, o)
  else if nameBufferSize - 1 ≤ fileName.length then .ok (false, o)
  else do
    let o ← o.storeName fileName
    return (true, o)

/-- `OUTPUT::OUTPUT(char *)`. -/
def newNamed (fileName : List UInt8) : Except OutputFault NamedOutput := do
  let (set, o) ← new.setFileName fileName
  if set then return o else .error .assertion

/-- The `while(1)` of `_openFile`. Attaching the buffer to a descriptor succeeds. -/
def openLoop (env : OutputEnv) : Nat → NamedOutput → Except OutputFault (Bool × NamedOutput)
  | 0, _ => .error .outOfFuel
  | fuel + 1, o =>
    let called := { o with openCalls := o.openCalls + 1 }
    match env.opens o.openCalls with
    | .opened fd => .ok (true, { called with fd := fd })
    | .failed => .ok (false, called)
    | .eexist =>
      if nameBufferSize - 1 ≤ o.fileName.length then .ok (false, called)
      else do
        -- `strcat(_file_name, "f")`
        let called ← called.storeName (o.fileName ++ [102])
        openLoop env fuel called

/-- `OUTPUT::_openFile`. -/
def openFile (env : OutputEnv) (o : NamedOutput) : Except OutputFault (Bool × NamedOutput) :=
  if 0 ≤ o.fd then .ok (true, o) else openLoop env nameBufferSize o

/-- The loop of `writeb`, with `sentSize` bytes of `dataSize` sent. -/
def sendLoop (env : OutputEnv) (buf : List UInt8) (dataSize : Int) :
    Nat → Nat → NamedOutput → Except OutputFault NamedOutput
  | fuel, sentSize, o =>
    if (sentSize : Int) < dataSize then
      match fuel with
      | 0 => .error .outOfFuel
      | fuel + 1 =>
        let retSize := min (env.room o.writeCalls) (dataSize.toNat - sentSize)
        sendLoop env buf dataSize fuel (sentSize + retSize)
          { o with
            writeCalls := o.writeCalls + 1
            taken := o.taken ++ (buf.drop sentSize).take retSize }
    else .ok o

/-- The part of `writeb` behind the opening of the file. -/
def send (env : OutputEnv) (fuel : Nat) (buf : List UInt8) (o : NamedOutput) :
    Except OutputFault (Int × NamedOutput) := do
  let dataSize := toInt32 buf.length
  let o ← sendLoop env buf dataSize fuel 0 o
  return (dataSize, { o with locked := false })

/-- `OUTPUT::writeb`. The loop is given `fuel` rounds. -/
def writeb (env : OutputEnv) (fuel : Nat) (buf : List UInt8) (o : NamedOutput) :
    Except OutputFault (Int × NamedOutput) :=
  let o := { o with locked := true }
  if o.fd < 0 then
    if o.fileName.length = 0 then .ok (0, { o with locked := false })
    else do
      let (opened, o) ← o.openFile env
      if opened then o.send env fuel buf else return (0, { o with locked := false })
  else o.send env fuel buf

/-- `OUTPUT::writef`, on the formatted text. -/
def writef (env : OutputEnv) (fuel : Nat) (text : List UInt8) (o : NamedOutput) :
    Except OutputFault (Int × NamedOutput) :=
  if text.length < localBufferSize then o.writeb env fuel text else .error .assertion

end NamedOutput

/-- A call on a stream. -/
inductive OutputCall where
  | setFileName (fileName : List UInt8)
  | writeb (buf : List UInt8)
  | writef (text : List UInt8)
  deriving DecidableEq, Repr

/-- One call. -/
def NamedOutput.step (env : OutputEnv) (fuel : Nat) (o : NamedOutput) :
    OutputCall → Except OutputFault NamedOutput
  | .setFileName fileName => (o.setFileName fileName).map Prod.snd
  | .writeb buf => (o.writeb env fuel buf).map Prod.snd
  | .writef text => (o.writef env fuel text).map Prod.snd

/-- Several calls. -/
def NamedOutput.run (env : OutputEnv) (fuel : Nat) (calls : List OutputCall) (o : NamedOutput) :
    Except OutputFault NamedOutput :=
  calls.foldlM (fun o call => o.step env fuel call) o

end DroidPerf
