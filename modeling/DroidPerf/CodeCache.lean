import DroidPerf.Range
import DroidPerf.Lib.ListSet
import Mathlib.Data.List.AList

/-!
# DroidPerf.CodeCache

The index of compiled methods (`code_cache.cpp`).

Each critical section under `_lock` is one step. `addMethod` has two: it releases the
lock while it builds the method, so a call in progress is kept in `pending` between
them. A `CompiledMethod *` is the number of the `addMethod` call that made the
object; a group is never deleted, so the pointer a call holds to it is its key.

Beside the code cache the profiler has a `MethodCache` of methods that were seen but
never compiled, which is dumped when the VM dies.
-/

namespace DroidPerf

/-- `CompiledMethod`. -/
structure CompiledMethod where
  methodId : Nat
  version : Nat
  codeSize : Nat
  startAddr : Nat
  deriving DecidableEq, Repr

/-- `CompiledMethodGroup`: the methods compiled for one id, by start address. -/
structure CompiledMethodGroup where
  methodId : Nat
  recentVersion : Nat
  addressMethodMap : AList fun _ : Nat => Nat

/-- `CodeCacheManager`, with the objects its pointers refer to, the calls of
`addMethod` between their two critical sections, and the objects deleted so far. -/
structure CodeCacheManager where
  methodIdMap : AList fun _ : Nat => CompiledMethodGroup
  methodRangeSet : RangeSet Nat Nat
  methods : List CompiledMethod
  pending : List Nat
  deleted : List Nat

namespace CodeCacheManager

/-- `CodeCacheManager::CodeCacheManager()`. -/
def new : CodeCacheManager := ⟨∅, .empty, [], [], []⟩

/-! ### Adding

The two sections of `addMethod` have their own definitions, since any other call can come
between them. -/

/-- The first critical section of `addMethod`: find or create the group and take a
version. -/
def beginAdd (s : CodeCacheManager) (methodId codeSize codeAddr : Nat) : CodeCacheManager :=
  let group := (s.methodIdMap.lookup methodId).getD ⟨methodId, 0, ∅⟩
  let version := (group.recentVersion + 1) % 2 ^ 32
  { s with
    methodIdMap := s.methodIdMap.insert methodId { group with recentVersion := version }
    methods := s.methods ++ [⟨group.methodId, version, codeSize, codeAddr⟩]
    pending := s.methods.length :: s.pending }

/-- The second critical section of `addMethod`: insert into the group and into the range set.
The end of the range is computed with 64 bits, and an insertion that reports failure fails the
assertion. -/
def finishAdd (s : CodeCacheManager) (newMethod : Nat) : Except Fault CodeCacheManager :=
  match s.methods[newMethod]? with
  | none => .error .segfault
  | some m =>
    match s.methodIdMap.lookup m.methodId with
    | none => .error .segfault
    | some group => do
      let group := { group with
        addressMethodMap := group.addressMethodMap.insert m.startAddr newMethod }
      let (inserted, methodRangeSet) ← s.methodRangeSet.insert m.startAddr
        (sub64 (add64 m.startAddr m.codeSize) 1) newMethod
      assert inserted
      return { s with
        methodIdMap := s.methodIdMap.insert m.methodId group
        methodRangeSet := methodRangeSet
        pending := s.pending.erase newMethod }

/-! ### Removing

What is deleted is what the group holds at the address, while the range set loses the range
that starts there, whichever method that is of. -/

/-- `CompiledMethodGroup::removeMethodByAddr`, with the deleted object. -/
def removeMethodByAddr (group : CompiledMethodGroup) (codeAddr : Nat) :
    CompiledMethodGroup × List Nat :=
  match group.addressMethodMap.lookup codeAddr with
  | none => (group, [])
  | some m => ({ group with addressMethodMap := group.addressMethodMap.erase codeAddr }, [m])

/-- `CodeCacheManager::removeMethod`. -/
def removeMethod (s : CodeCacheManager) (methodId codeAddr : Nat) :
    Except Fault CodeCacheManager :=
  match s.methodIdMap.lookup methodId with
  | none => .ok s
  | some group => do
    let (group, deleted) := removeMethodByAddr group codeAddr
    let (removed, methodRangeSet) := s.methodRangeSet.remove codeAddr
    assert removed
    return { s with
      methodIdMap := s.methodIdMap.insert methodId group
      methodRangeSet := methodRangeSet
      deleted := deleted ++ s.deleted }

/-! ### Looking up

By address the range set answers, by id the group. The iteration order of the group's hash map
is a parameter. -/

/-- `CodeCacheManager::getMethod` by address. -/
def getMethod (s : CodeCacheManager) (addr : Nat) : Option Nat := s.methodRangeSet.getData addr

/-- `CodeCacheManager::findMethodByAddr`: the method's id and version. -/
def findMethodByAddr (s : CodeCacheManager) (addr : Nat) : Option (Nat × Nat) :=
  (s.methodRangeSet.getData addr).bind fun m =>
    s.methods[m]?.map fun method => (method.methodId, method.version)

/-- An order in which a hash map is iterated: each value once. Nothing else is known of it. -/
structure IterationOrder where
  values : (AList fun _ : Nat => Nat) → List Nat
  perm : ∀ m, (values m).Perm (m.entries.map Sigma.snd)

/-- The version of a stored method. -/
def versionOf (s : CodeCacheManager) (m : Nat) : Nat :=
  (s.methods[m]?.map CompiledMethod.version).getD 0

/-- `CompiledMethodGroup::getMethodByVersion` on the group's methods in the order of
the iteration. -/
def getMethodByVersion (s : CodeCacheManager) (version : Nat) (methods : List Nat) : Option Nat :=
  if version = 0 then
    methods.foldl (fun ret m =>
      match ret with
      | none => some m
      | some r => if s.versionOf r < s.versionOf m then some m else some r) none
  else methods.find? fun m => s.versionOf m = version

/-- `CodeCacheManager::getMethod` by id. -/
def getMethodById (s : CodeCacheManager) (order : IterationOrder) (methodId : Nat) : Option Nat :=
  (s.methodIdMap.lookup methodId).bind fun group =>
    s.getMethodByVersion 0 (order.values group.addressMethodMap)

/-! ### Runs

The sections that only read are no events: they change nothing and their answers are functions
of the state. -/

/-- The critical sections that change the indexes. -/
inductive Event where
  | beginAdd (methodId codeSize codeAddr : Nat)
  | finishAdd (newMethod : Nat)
  | removeMethod (methodId codeAddr : Nat)
  deriving DecidableEq, Repr

/-- One critical section. -/
def step (s : CodeCacheManager) : Event → Except Fault CodeCacheManager
  | .beginAdd methodId codeSize codeAddr => .ok (s.beginAdd methodId codeSize codeAddr)
  | .finishAdd newMethod => s.finishAdd newMethod
  | .removeMethod methodId codeAddr => s.removeMethod methodId codeAddr

end CodeCacheManager

/-! ### Methods that are not compiled

The calls on this cache are single steps here, as are those that look into both caches;
`CodeCacheCalls` takes the latter apart. -/

/-- `MethodCache`. -/
structure MethodCache where
  methodSet : ListSet Nat

namespace MethodCache

/-- `MethodCache::addMethod`. -/
def addMethod (c : MethodCache) (method : Nat) : MethodCache := ⟨c.methodSet.insert method⟩

/-- `MethodCache::removeMethod`. -/
def removeMethod (c : MethodCache) (method : Nat) : MethodCache := ⟨c.methodSet.erase method⟩

/-- `MethodCache::performActionAll`; `traversal` is the order in which the set is run
over. -/
def performActionAll {α : Type} (traversal : ListSet.Traversal Nat) (cb : Nat → α → α)
    (c : MethodCache) (data : α) : α :=
  (traversal.list c.methodSet).foldl (fun data method => cb method data) data

end MethodCache

/-- The two caches of the profiler. -/
structure MethodCaches where
  codeCacheManager : CodeCacheManager
  uncompiledMethodCache : MethodCache

namespace MethodCaches

/-- Before the first call. -/
def new : MethodCaches := ⟨.new, ⟨.empty⟩⟩

/-- `addMethodAndRemoveFromUncompiledSet`. What follows the search for the group is
disabled in the source, so the method's code is not looked at. -/
def addMethodAndRemoveFromUncompiledSet (s : MethodCaches) (methodId : Nat) : MethodCaches :=
  let manager := s.codeCacheManager
  let group := (manager.methodIdMap.lookup methodId).getD ⟨methodId, 0, ∅⟩
  { codeCacheManager := { manager with methodIdMap := manager.methodIdMap.insert methodId group }
    uncompiledMethodCache := s.uncompiledMethodCache.removeMethod methodId }

/-- `checkAndMoveMethodToUncompiledSet`. -/
def checkAndMoveMethodToUncompiledSet (s : MethodCaches) (methodId : Nat) : MethodCaches :=
  match s.codeCacheManager.methodIdMap.lookup methodId with
  | none => { s with uncompiledMethodCache := s.uncompiledMethodCache.addMethod methodId }
  | some _ => s

/-- `dump_uncompiled_method`, on the list of the methods dumped so far. -/
def dumpUncompiledMethod (method : Nat) (dumped : List Nat) : List Nat :=
  if method = 0 then dumped else dumped ++ [method]

/-- What `callbackVMDeath` dumps. -/
def dumpAtVMDeath (traversal : ListSet.Traversal Nat) (s : MethodCaches) : List Nat :=
  s.uncompiledMethodCache.performActionAll traversal dumpUncompiledMethod []

/-- The calls that change the caches; those of `addMethod` and `removeMethod` as the
critical sections they consist of. -/
inductive Event where
  | codeCache (e : CodeCacheManager.Event)
  | addMethodAndRemoveFromUncompiledSet (methodId : Nat)
  | checkAndMoveMethodToUncompiledSet (methodId : Nat)
  deriving DecidableEq, Repr

/-- One call. -/
def step (s : MethodCaches) : Event → Except Fault MethodCaches
  | .codeCache e =>
    (s.codeCacheManager.step e).map fun manager => { s with codeCacheManager := manager }
  | .addMethodAndRemoveFromUncompiledSet methodId =>
    .ok (s.addMethodAndRemoveFromUncompiledSet methodId)
  | .checkAndMoveMethodToUncompiledSet methodId =>
    .ok (s.checkAndMoveMethodToUncompiledSet methodId)

end MethodCaches

end DroidPerf
