import DroidPerf.Lib.CText
import DroidPerf.Machine
import Mathlib.Data.List.Infix
import Mathlib.Logic.Function.Basic

/-!
# DroidPerf.BlackList

The address ranges that are left out of the measurements, read from `/proc/self/maps`
(`profiler_support.cpp`).

A call that reads through a null pointer ends the process; the model gives the table as it is
then, so that what was written before is known in either case.

The table is a function on all indices, since the code writes to it without a bound, and the
list of the indices written is kept beside it. The file, `realpath` and what was in the memory
of `tmpname` are parameters (`MapsEnv`).
-/

namespace DroidPerf

open CText

/-- `BlackListAddressRange_t`. -/
structure BlackListAddressRange where
  startAddr : Nat
  endAddr : Nat
  deriving DecidableEq, Repr

/-- `MAX_BLACK_LIST_ADDRESS`. -/
def maxBlackListAddress : Nat := 1024

/-- `blackListedModules`. -/
def blackListedModules : List (List Char) :=
  ["libpfm.so".toList, "libxed.so".toList, "libxed-ild.so".toList, "libpreload.so".toList,
   "libagent.so".toList, "libstdc++.so".toList, "libjvm.so".toList, "libc".toList,
   "anon_inode:[perf_event]".toList]

/-- The table. What the entries beyond `numBlackListAddresses` hold is of no interest, but they
can be written. -/
structure BlackList where
  blackListAddresses : Nat → BlackListAddressRange
  numBlackListAddresses : Nat
  /-- The indices that were written, in order. -/
  writes : List Nat

/-- The table at the start of the process. -/
def BlackList.init : BlackList := ⟨fun _ => ⟨0, 0⟩, 0, []⟩

/-- An entry at the end; the counter is a `uint16_t`. -/
def BlackList.record (b : BlackList) (range : BlackListAddressRange) : BlackList where
  blackListAddresses := Function.update b.blackListAddresses b.numBlackListAddresses range
  numBlackListAddresses := (b.numBlackListAddresses + 1) % 2 ^ 16
  writes := b.writes ++ [b.numBlackListAddresses]

/-- What the system answers. -/
structure MapsEnv where
  /-- The content of `/proc/self/maps`; none when it cannot be opened. -/
  maps : Option (List Char)
  /-- The path that `realpath` resolves a name to; none when it fails. -/
  realpath : List Char → Option (List Char)
  /-- What is in `tmpname` before anything is written there. -/
  tmpname : List Char
  /-- `sysconf(_SC_PAGESIZE)`. -/
  pageSize : Nat

/-- `strstr(s, module)`. -/
def strstr (s module : List Char) : Bool := module <:+: s

/-- `realpath(name, tmpname)`: the content of `tmpname` afterwards. -/
def MapsEnv.realpathTo (env : MapsEnv) (name : Option (List Char)) (tmpname : List Char) :
    List Char :=
  (name.bind env.realpath).getD tmpname

/-- `(void*)(uintptr_t)strtol(str, NULL, 16)`. -/
def toAddress (str : List Char) : Nat := (strtol str % 2 ^ 64).toNat

/-- The entry for a module that is in `tmpname`: take `addr` apart at its dash. -/
def recordRange (st : BlackList × Option (List Char)) :
    Except BlackList (BlackList × Option (List Char)) :=
  match st.2 with
  -- `strtok_r` is called with two null pointers
  | none => .error st.1
  | some addr =>
    let first := strtok ['-'] addr
    let second := strtok ['-'] first.save
    match first.token, second.token with
    | some startStr, some endStr =>
      .ok (st.1.record ⟨toAddress startStr, toAddress endStr⟩, some first.str)
    -- `strtol` is called with a null pointer
    | _, _ => .error st.1

/-- The body of the loop over the modules. -/
def populateModule (tmpname : List Char) (st : BlackList × Option (List Char))
    (module : List Char) : Except BlackList (BlackList × Option (List Char)) :=
  if strstr tmpname module then recordRange st else .ok st

/-- `(void)strtok_r(NULL, delim, &save)`, a number of times. -/
def skipTokens (delim : List Char) : Nat → List Char → List Char
  | 0, save => save
  | n + 1, save => skipTokens delim n (strtok delim save).save

/-- The body of the loop over the lines; the state is the table and `tmpname`, which keeps the
last path when a line has none. -/
def populateLine (env : MapsEnv) (st : BlackList × List Char) (tmp : List Char) :
    Except BlackList (BlackList × List Char) := do
  let line := tmp.takeWhile fun c => c ≠ '\x00'
  let delim := [' ', '\n']
  let addr := strtok delim line
  let save := skipTokens delim 3 (strtok delim addr.save).save
  let name := (strtok delim save).token
  let tmpname := env.realpathTo name st.2
  let modules ← blackListedModules.foldlM (populateModule tmpname) (st.1, addr.token)
  return (modules.1, tmpname)

/-- What `std::getline` reads until `eof` is set: the text between the line ends, which is
empty behind a last line end. -/
def getLines (content : List Char) : List (List Char) := content.splitOn '\n'

/-- `PopulateBlackListAddresses`. -/
def populateBlackListAddresses (env : MapsEnv) (b : BlackList) : Except BlackList BlackList :=
  if b.numBlackListAddresses = 0 then
    match env.maps with
    | none => .ok b
    | some content => do
      let st ← (getLines content).foldlM (populateLine env) (b, env.tmpname)
      -- no first page
      return st.1.record ⟨0, env.pageSize⟩
  else .ok b

/-- `IsBlackListedAddress`. -/
def isBlackListedAddress (b : BlackList) (addr : Nat) : Bool :=
  (List.range b.numBlackListAddresses).any fun i =>
    decide ((b.blackListAddresses i).startAddr ≤ addr ∧ addr < (b.blackListAddresses i).endAddr)

end DroidPerf
