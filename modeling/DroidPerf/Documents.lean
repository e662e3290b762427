import DroidPerf.Profiler
import Mathlib.Logic.Function.Basic

/-!
# DroidPerf.Documents

The directory of the output files: how the agent names a file (`OUTPUT::_openFile` in `io.cpp`,
`Profiler::threadStart` in `profiler.cpp`), and how the converter finds the files of a thread
by their names (`android-converter.py`).

A thread's id can be that of a thread that has ended, of the same process or of an earlier one;
its files are then among those of the other thread. So a file is kept with the number of its
writer, which is not in its name and which neither program knows.

The loop of `_openFile` has a bound of its own, the room in the name buffer, and recurses on
it.
-/

namespace DroidPerf

open Text

/-- The kinds of output files. -/
inductive OutputKind where
  | method
  | trace
  | alloc
  | cachemiss
  deriving DecidableEq, Repr

/-- The kind in a file name. -/
def OutputKind.name : OutputKind → String
  | .method => "method"
  | .trace => "trace"
  | .alloc => "alloc"
  | .cachemiss => "cachemiss"

/-- A file in the directory, with the thread that wrote it and the id that the thread
had. -/
structure OutputFile where
  writer : Nat
  kind : OutputKind
  tid : Nat
  path : List Char
  deriving DecidableEq, Repr

/-- The name of a file in its directory. -/
def OutputFile.name (file : OutputFile) : List Char := afterLast '/' file.path

/-- The loop of `_openFile`: an `f` is added as long as the file is there. `room` is what
is left of the name buffer. -/
def openFile (paths : List (List Char)) : Nat → List Char → Option (List Char)
  | room, fileName =>
    if fileName ∈ paths then
      match room with
      | 0 => none
      | room + 1 => openFile paths room (fileName ++ ['f'])
    else some fileName

/-- A thread writes to a stream for the first time, which creates its file. -/
def openOutput (tid : Nat → Nat) (files : List OutputFile) (writer : Nat) (kind : OutputKind) :
    List OutputFile :=
  let fileName := (newOutput kind.name (tid writer)).fileName
  match openFile (files.map OutputFile.path) (nameBufferSize - 1 - byteSize fileName) fileName with
  | some path => files ++ [⟨writer, kind, tid writer, path⟩]
  | none => files

/-- The directory after threads have opened files, in this order. -/
def documents (tid : Nat → Nat) (opened : List (Nat × OutputKind)) : List OutputFile :=
  opened.foldl (fun files o => openOutput tid files o.1 o.2) []

/-! ### The converter

The map is a function of two keys. A file that is read later takes the place of an earlier one
with the same keys. -/

/-- The keys of a file, `temp[2]` and `temp[0]`. -/
def profileKey (f : List Char) : Option (List Char × List Char) :=
  match ((f.splitOn '.').headD []).splitOn '-' with
  | kind :: _ :: tid :: _ => some (tid, kind)
  | _ => none

/-- The body of the loop over `filelist`. -/
def addProfile (threadProfileMap : List Char → List Char → Option (List Char)) (f : List Char) :
    Option (List Char → List Char → Option (List Char)) := do
  let (tid, kind) ← profileKey f
  return Function.update threadProfileMap tid
    (Function.update (threadProfileMap tid) kind (some f))

/-- `threadProfileMap`. -/
def threadProfileMap (filelist : List (List Char)) :
    Option (List Char → List Char → Option (List Char)) :=
  filelist.foldlM addProfile fun _ _ => none

end DroidPerf
