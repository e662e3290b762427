import DroidPerf.Machine
import DroidPerf.Lib.Text

/-!
# DroidPerf.Io

The agent's output files (`io.cpp`).

An `OUTPUT` is its file name, whether the file is open, and the pieces written so far; its text
is what these print. Opening a file succeeds here under the name that was set, and the buffer
layer takes every byte.

The texts are kept as the pieces they were written from (`Fragment`), so that what a file holds
can be told without reading it. Lengths are in bytes, as the buffers count them.
-/

namespace DroidPerf

open Text

/-- `NAME_BUFFER_SIZE`. -/
def nameBufferSize : Nat := 256

/-- `LOCAL_BUFFER_SIZE`. -/
def localBufferSize : Nat := 1024

/-- The format strings the agent passes to `writef`, with their arguments. A
`jmethodID` is a 64-bit pointer, passed where `%d` reads an `int`. -/
inductive Fragment where
  /-- `"%s:%d "`: a frame of a call path. -/
  | frame (scope : List Char) (method : Nat)
  /-- `"|%d\n"`: the end of a line, with a metric. -/
  | metric (value : Nat)
  /-- `"|%ld\n"`: the end of a line, with an allocation count. -/
  | count (value : Nat)
  /-- `"%d %s %s\n"`: a line of the method file. -/
  | methodLine (method : Nat) (name className : List Char)
  deriving DecidableEq, Repr

/-- Conversion of an unsigned number to `long`. -/
def toInt64 (a : Nat) : Int :=
  if a % 2 ^ 64 < 2 ^ 63 then (a % 2 ^ 64 : Nat) else (a % 2 ^ 64 : Nat) - 2 ^ 64

/-- The formatted text. -/
def Fragment.print : Fragment → List Char
  | .frame scope method => scope ++ ':' :: (decimal (toInt32 method) ++ [' '])
  | .metric value => '|' :: (decimal (toInt32 value) ++ ['\n'])
  | .count value => '|' :: (decimal (toInt64 value) ++ ['\n'])
  | .methodLine method name className =>
    decimal (toInt32 method) ++ ' ' :: (name ++ ' ' :: (className ++ ['\n']))

/-- `class OUTPUT`. -/
structure Output where
  fileName : List Char
  isOpen : Bool
  written : List Fragment
  deriving DecidableEq, Repr

namespace Output

/-- The text handed to the file. -/
def text (o : Output) : List Char := o.written.flatMap Fragment.print

/-- `OUTPUT::OUTPUT()`. -/
def new : Output := ⟨[], false, []⟩

/-- `OUTPUT::setFileName`. -/
def setFileName (o : Output) (fileName : List Char) : Bool × Output :=
  if 0 < byteSize o.fileName then (false, o)
  else if nameBufferSize - 1 ≤ byteSize fileName then (false, o)
  else (true, { o with fileName := fileName })

/-- `OUTPUT::writeb`: nothing is written while the file has no name. -/
def writeb (o : Output) (data : Fragment) : Output :=
  if o.isOpen then { o with written := o.written ++ [data] }
  else if byteSize o.fileName = 0 then o
  else { o with isOpen := true, written := o.written ++ [data] }

/-- `OUTPUT::writef`. -/
def writef (o : Output) (data : Fragment) : Except Fault Output := do
  assert (byteSize data.print < localBufferSize)
  return o.writeb data

/-- A stream that can be written to. -/
def Ready (o : Output) : Prop := o.isOpen = true ∨ 0 < byteSize o.fileName

/-- A piece that is written to a stream with a name is in its file. -/
theorem writeb_ready {o : Output} (ho : o.Ready) (data : Fragment) :
    (o.writeb data).written = o.written ++ [data] ∧ (o.writeb data).Ready := by
  unfold writeb
  split
  · exact ⟨rfl, ho⟩
  · rename_i hopen
    have hname := ho.resolve_left hopen
    rw [if_neg (Nat.pos_iff_ne_zero.mp hname)]
    exact ⟨rfl, .inl rfl⟩

/-- A piece that `writef` accepts is in the file as well. -/
theorem writef_ready {o o' : Output} {data : Fragment} (ho : o.Ready)
    (h : o.writef data = .ok o') : o'.written = o.written ++ [data] ∧ o'.Ready := by
  obtain ⟨-, -, h⟩ := bind_eq_ok.mp h
  cases h
  exact writeb_ready ho data

/-- A write adds no piece but its own. -/
theorem mem_writef {o o' : Output} {data piece : Fragment} (h : o.writef data = .ok o')
    (hpiece : piece ∈ o'.written) : piece ∈ o.written ∨ piece = data := by
  obtain ⟨-, -, h⟩ := bind_eq_ok.mp h
  cases h
  have hwritten : (o.writeb data).written = o.written ∨
      (o.writeb data).written = o.written ++ [data] := by
    unfold writeb
    split
    · exact .inr rfl
    · split
      · exact .inl rfl
      · exact .inr rfl
  rcases hwritten with hwritten | hwritten
  · exact .inl (hwritten ▸ hpiece)
  · rw [hwritten, List.mem_append, List.mem_singleton] at hpiece
    exact hpiece

/-- Several pieces one after another. -/
def writeAll (fragments : List Fragment) (o : Output) : Except Fault Output :=
  fragments.foldlM (fun o data => o.writef data) o

@[simp] theorem writeAll_nil (o : Output) : o.writeAll [] = .ok o := rfl

/-- The first piece and then the others. -/
theorem writeAll_cons (data : Fragment) (fragments : List Fragment) (o : Output) :
    o.writeAll (data :: fragments) = o.writef data >>= fun o => o.writeAll fragments := by
  unfold writeAll
  rw [List.foldlM_cons]

/-- One piece in a list is written as it is alone. -/
@[simp] theorem writeAll_singleton (data : Fragment) (o : Output) :
    o.writeAll [data] = o.writef data := by
  rw [writeAll_cons]
  cases o.writef data <;> rfl

/-- Lists of pieces can be written one after the other. -/
theorem writeAll_append (fragments fragments' : List Fragment) (o : Output) :
    o.writeAll (fragments ++ fragments') =
      o.writeAll fragments >>= fun o => o.writeAll fragments' := by
  unfold writeAll
  rw [List.foldlM_append]

/-- Pieces that are written to a stream with a name are in its file, in their order. -/
theorem writeAll_ready {fragments : List Fragment} {o o' : Output} (ho : o.Ready)
    (h : o.writeAll fragments = .ok o') : o'.written = o.written ++ fragments ∧ o'.Ready := by
  induction fragments generalizing o with
  | nil =>
      cases h
      exact ⟨(List.append_nil _).symm, ho⟩
  | cons data fragments ih =>
      rw [writeAll_cons] at h
      obtain ⟨o₁, hdata, h⟩ := bind_eq_ok.mp h
      obtain ⟨hwritten, hready⟩ := writef_ready ho hdata
      obtain ⟨hrest, hready'⟩ := ih hready h
      refine ⟨?_, hready'⟩
      rw [hrest, hwritten, List.append_assoc, List.singleton_append]

/-- Pieces that fit the local buffer are written. -/
theorem writeAll_fits {fragments : List Fragment}
    (h : ∀ data ∈ fragments, byteSize data.print < localBufferSize) (o : Output) :
    ∃ o', o.writeAll fragments = .ok o' := by
  induction fragments generalizing o with
  | nil => exact ⟨o, rfl⟩
  | cons data fragments ih =>
      obtain ⟨hdata, hrest⟩ := List.forall_mem_cons.mp h
      obtain ⟨o', ho'⟩ := ih hrest (o.writeb data)
      refine ⟨o', ?_⟩
      rw [writeAll_cons, writef, decide_eq_true hdata]
      exact ho'

end Output

end DroidPerf
