import DroidPerf.OutBuf

/-!
# DroidPerf.BufferedOutput

An output stream together with its buffer (`io.cpp` on top of `hpcio-buffer.c`): where
`NamedOutput` is given what `hpcio_outbuf_write` returns, the stream here calls it.

The members that both have are those of `NamedOutput`, and so is the code for the name and for
opening the file. New are the memory of `_print_buffer`, the buffer that is attached to it, and
the file behind that. Two loops are nested: `flushes` bounds the rounds of each flush, `fuel`
those of `writeb`.
-/

namespace DroidPerf

/-- `class OUTPUT`. The members that `NamedOutput` has are in `named`; `_print_buffer` holds
whatever was in the memory, and `buffer` counts from the attaching on. -/
structure BufferedOutput where
  named : NamedOutput
  printBuffer : List UInt8
  buffer : OutbufFile
  deriving DecidableEq, Repr

namespace BufferedOutput

/-- `OUTPUT::OUTPUT()`. -/
def new (printBuffer : List UInt8) : BufferedOutput :=
  ⟨.new, printBuffer, .attached ⟨0, [], [], -1⟩⟩

/-- `OUTPUT::setFileName`. -/
def setFileName (fileName : List UInt8) (o : BufferedOutput) :
    Except OutputFault (Bool × BufferedOutput) :=
  (o.named.setFileName fileName).map fun (set, named) => (set, { o with named := named })

/-- `OUTPUT::_openFile`: the calls of `open` are those of the stream without a buffer. -/
def openFile (env : OutbufEnv) (o : BufferedOutput) : Except OutputFault (Bool × BufferedOutput) :=
  if 0 ≤ o.named.fd then .ok (true, o)
  else do
    let (opened, named) ← o.named.openFile ⟨env.opens, fun _ => 0⟩
    if opened then
      match hpcioOutbufAttach named.fd o.printBuffer with
      | none => .error .assertion
      | some outbuf => return (true, { o with named := named, buffer := .attached outbuf })
    else return (false, { o with named := named })

/-- The loop of `writeb`, with `sentSize` bytes of `dataSize` sent. Each flush is given
`flushes` rounds. A result below zero would end the loop; that it never comes is proved. -/
def sendLoop (env : OutbufEnv) (flushes : Nat) (buf : List UInt8) (dataSize : Int) :
    Nat → Nat → BufferedOutput → Except OutputFault BufferedOutput
  | fuel, sentSize, o =>
    if (sentSize : Int) < dataSize then
      match fuel with
      | 0 => .error .outOfFuel
      | fuel + 1 => do
        let data := (buf.drop sentSize).take (dataSize.toNat - sentSize)
        let (retSize, buffer) ← hpcioOutbufWrite env flushes data o.buffer
        if 0 ≤ retSize then
          sendLoop env flushes buf dataSize fuel (sentSize + retSize.toNat)
            { o with
              named := { o.named with
                writeCalls := o.named.writeCalls + 1
                taken := o.named.taken ++ (buf.drop sentSize).take retSize.toNat }
              buffer := buffer }
        else .error .assertion
    else .ok o

/-- The part of `writeb` behind the opening of the file. -/
def send (env : OutbufEnv) (flushes fuel : Nat) (buf : List UInt8) (o : BufferedOutput) :
    Except OutputFault (Int × BufferedOutput) := do
  let dataSize := toInt32 buf.length
  let o ← sendLoop env flushes buf dataSize fuel 0 o
  return (dataSize, { o with named := { o.named with locked := false } })

/-- `OUTPUT::writeb`. -/
def writeb (env : OutbufEnv) (flushes fuel : Nat) (buf : List UInt8) (o : BufferedOutput) :
    Except OutputFault (Int × BufferedOutput) :=
  let o := { o with named := { o.named with locked := true } }
  if o.named.fd < 0 then
    if o.named.fileName.length = 0 then
      .ok (0, { o with named := { o.named with locked := false } })
    else do
      let (opened, o) ← o.openFile env
      if opened then o.send env flushes fuel buf
      else return (0, { o with named := { o.named with locked := false } })
  else o.send env flushes fuel buf

/-- `OUTPUT::writef`, on the formatted text. -/
def writef (env : OutbufEnv) (flushes fuel : Nat) (text : List UInt8) (o : BufferedOutput) :
    Except OutputFault (Int × BufferedOutput) :=
  if text.length < localBufferSize then o.writeb env flushes fuel text else .error .assertion

/-- `OUTPUT::~OUTPUT`, whose `hpcio_outbuf_close` may fail unnoticed. -/
def destroy (env : OutbufEnv) (flushes : Nat) (o : BufferedOutput) :
    Except OutputFault OutbufFile :=
  if 0 ≤ o.named.fd then (hpcioOutbufClose env flushes o.buffer).map Prod.snd else .ok o.buffer

/-- One call. -/
def step (env : OutbufEnv) (flushes fuel : Nat) (o : BufferedOutput) :
    OutputCall → Except OutputFault BufferedOutput
  | .setFileName fileName => (o.setFileName fileName).map Prod.snd
  | .writeb buf => (o.writeb env flushes fuel buf).map Prod.snd
  | .writef text => (o.writef env flushes fuel text).map Prod.snd

/-- Several calls. -/
def run (env : OutbufEnv) (flushes fuel : Nat) (calls : List OutputCall) (o : BufferedOutput) :
    Except OutputFault BufferedOutput :=
  calls.foldlM (fun o call => o.step env flushes fuel call) o

end BufferedOutput

end DroidPerf
