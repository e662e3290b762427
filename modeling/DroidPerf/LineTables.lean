import DroidPerf.Agent
import DroidPerf.CodeCache

/-!
# DroidPerf.LineTables

The line tables of a method (`Method` and `CompiledMethod` in `code_cache.cpp`).

A method maps its bytecode indexes to source lines, and when it is compiled also the
addresses of its code. Both maps are range sets over `uint64_t`; a `jlocation` is signed
and is converted when it is used as a key. What a function asks the VM for is an argument,
`none` when the call fails.
-/

namespace DroidPerf

/-- Conversion of a `jlocation` to `uint64_t`. -/
def toUint64 (x : Int) : Nat := (x % 2 ^ 64).toNat

/-- The entries of a line table. -/
def LineTable.entries (t : LineTable) : List LineNumberEntry := t.first :: t.rest

/-! ### Bytecode indexes

The virtual machine gives a list of start locations with their lines. It is stored as ranges,
each reaching up to the next start. -/

/-- `Method`, without its names. -/
structure Method where
  isNative : Bool
  bci2lineRangeset : RangeSet Nat Int

/-- The loop of `loadBCILineTable`. An entry reaches up to the next one, the last one up to
the end of the method. -/
def loadLines (endLocation : Int) :
    List LineNumberEntry → RangeSet Nat Int → Except Fault (RangeSet Nat Int)
  | [], rs => .ok rs
  | entry :: entries, rs => do
    let tmpStart := entry.startLocation
    let tmpEnd :=
      match entries with
      | next :: _ => next.startLocation - 1
      | [] => endLocation
    if tmpEnd < tmpStart then loadLines endLocation entries rs
    else
      -- the result of `insert` only decides about a message
      let (_, rs) ← rs.insert (toUint64 tmpStart) (toUint64 tmpEnd) entry.lineNumber
      loadLines endLocation entries rs

/-- `Method::loadBCILineTable`, with the results of `GetMethodLocation` and
`GetLineNumberTable`. -/
def Method.loadBCILineTable (m : Method) (endLocation : Option Int)
    (lineTable : Option (List LineNumberEntry)) : Except Fault Method :=
  if m.isNative then .ok m
  -- already initialized
  else if !m.bci2lineRangeset.isEmpty then .ok m
  else
    match endLocation, lineTable with
    | some endLocation, some lineTable => do
      let rs ← loadLines endLocation lineTable m.bci2lineRangeset
      return { m with bci2lineRangeset := rs }
    | _, _ => .ok m

/-- `Method::Method`, given the flag from `IsMethodNative`. -/
def Method.new (isNative : Bool) (endLocation : Option Int)
    (lineTable : Option (List LineNumberEntry)) : Except Fault Method :=
  Method.loadBCILineTable ⟨isNative, .empty⟩ endLocation lineTable

/-! ### Addresses

For a compiled method the virtual machine gives addresses with their bytecode indexes. The
range before an address gets the line of that address, so all lines stand one entry too early. -/

/-- `jvmtiAddrLocationMap`. -/
structure AddrLocation where
  startAddress : Nat
  location : Int
  deriving DecidableEq, Repr

/-- A `CompiledMethod` with the tables it has beside what the code cache uses of it. -/
structure MappedMethod extends CompiledMethod, Method where
  addr2lineRangeset : RangeSet Nat Int

namespace MappedMethod

/-- `CompiledMethod::CompiledMethod`. -/
def new (base : Method) (c : CompiledMethod) : MappedMethod :=
  { toCompiledMethod := c, toMethod := base, addr2lineRangeset := .empty }

/-- The line of a location in the bytecode table. -/
def lineOf (m : MappedMethod) (entry : AddrLocation) : Option Int :=
  m.bci2lineRangeset.getData (toUint64 entry.location)

/-- `_start_addr + _code_size - 1`. -/
def codeEnd (m : MappedMethod) : Nat := sub64 (add64 m.startAddr m.codeSize) 1

/-- The loop of `loadAddrLocationMap`, from one entry to the next. The code between two
entries gets the line of the second one. -/
def mapLoop (m : MappedMethod) :
    AddrLocation → List AddrLocation → RangeSet Nat Int → Except Fault (RangeSet Nat Int)
  | _, [], rs => .ok rs
  | entry, next :: rest, rs => do
    let startAddr := entry.startAddress
    let endAddr := sub64 next.startAddress 1
    assert (startAddr ≤ endAddr)
    assert (endAddr ≤ m.codeEnd)
    match m.lineOf next with
    | none => return rs
    | some lineno => do
      let (_, rs) ← rs.insert startAddr endAddr lineno
      m.mapLoop next rest rs

/-- `CompiledMethod::loadAddrLocationMap`. -/
def loadAddrLocationMap (m : MappedMethod) (map : List AddrLocation) :
    Except Fault MappedMethod :=
  if m.isNative then .ok m
  else
    match map with
    | [] => .ok m
    | first :: rest =>
      if m.bci2lineRangeset.isEmpty then .ok m
      else do
        let endAddr := sub64 first.startAddress 1
        assert (m.startAddr ≤ endAddr)
        match m.lineOf first with
        | none => return m
        | some lineno => do
          let (_, rs) ← m.addr2lineRangeset.insert m.startAddr endAddr lineno
          let rs ← m.mapLoop first rest rs
          return { m with addr2lineRangeset := rs }

/-- `CompiledMethod::addr2line`. -/
def addr2line (m : MappedMethod) (addr : Nat) : Except Fault Int :=
  if m.addr2lineRangeset.isEmpty then .ok 0
  else
    match m.addr2lineRangeset.getData addr with
    | some line => .ok line
    | none => do
      assert (m.startAddr ≤ addr ∧ addr ≤ m.codeEnd)
      return 0

/-- `CompiledMethod::startLine`. -/
def startLine (m : MappedMethod) : Int :=
  if m.addr2lineRangeset.isEmpty then -1
  else (m.addr2lineRangeset.getData m.startAddr).getD 0

end MappedMethod

end DroidPerf
