import DroidPerf.CodeCache
import DroidPerf.Lib.SpinLock

/-!
# DroidPerf.CodeCacheCalls

The calls of `CodeCacheManager` statement by statement, as programs of threads that share the
caches under `_lock` (`code_cache.cpp` on top of `lock.h`).

`CodeCache` has the critical sections of a call as single steps. Here a section is the
statements between `_lock.lock()` and `_lock.unlock()`, and other threads can run between any
two of them. The objects that pointers refer to are part of the shared data, so a call of
`addMethod` gets the number of its object with its version.

`CallState` is the same calls in whole sections. `CodeCacheCallsSound` shows that the two agree
whenever the lock is free.
-/

namespace DroidPerf

open SpinLock

variable {α ι : Type}

namespace MethodCaches

/-- A call of one of the functions. -/
inductive Call where
  | addMethod (methodId codeSize codeAddr : Nat)
  | addMethodAndRemoveFromUncompiledSet (methodId : Nat)
  | removeMethod (methodId codeAddr : Nat)
  | checkAndMoveMethodToUncompiledSet (methodId : Nat)
  | getMethod (addr : Nat)
  | getMethodById (order : CodeCacheManager.IterationOrder) (methodId : Nat)
  | findMethodByAddr (addr : Nat)

/-- What a call returns; `findMethodByAddr` also sets an id and a version. -/
inductive Answer where
  | nothing
  | method (m : Option Nat)
  | found (idAndVersion : Option (Nat × Nat))
  deriving DecidableEq, Repr

/-! ### Statements

Each definition is a statement of the source that touches the caches, or a pair of statements
with nothing between them that another thread could see. A failed assertion ends its thread
(`abort`), and the lock stays taken. -/

/-- The group of an id is what a pointer to it refers to. -/
def setGroup (methodId : Nat) (group : CompiledMethodGroup) (s : MethodCaches) : MethodCaches :=
  { s with codeCacheManager := { s.codeCacheManager with
      methodIdMap := s.codeCacheManager.methodIdMap.insert methodId group } }

def setMethodRangeSet (methodRangeSet : RangeSet Nat Nat) (s : MethodCaches) : MethodCaches :=
  { s with codeCacheManager := { s.codeCacheManager with methodRangeSet := methodRangeSet } }

/-- `LockScope::setLock`. -/
def setLock : Prog MethodCaches Unit := .lock (.done ())

/-- `LockScope::unsetLock`. -/
def unsetLock : Prog MethodCaches Unit :=
  .isLocked fun locked => if locked then .unlock (.done ()) else .abort

/-- The search in `_method_id_map`, and a new group if there is none. -/
def findGroup (methodId : Nat) : Prog MethodCaches Unit :=
  .load fun s =>
    match s.codeCacheManager.methodIdMap.lookup methodId with
    | none => .update (setGroup methodId ⟨methodId, 0, ∅⟩) (.done ())
    | some _ => .done ()

/-- A statement on a group through a pointer to it. The pointer is not followed again after the
lock was released, so a group that is looked up is there. -/
def onGroup (methodId : Nat) (next : CompiledMethodGroup → Prog MethodCaches α) :
    Prog MethodCaches α :=
  .load fun s =>
    match s.codeCacheManager.methodIdMap.lookup methodId with
    | none => .abort
    | some group => next group

/-- `uint32_t version = ++_recent_version`, with the group's id. -/
def takeVersion (methodId : Nat) : Prog MethodCaches (Nat × Nat) :=
  onGroup methodId fun group =>
    let version := (group.recentVersion + 1) % 2 ^ 32
    .update (setGroup methodId { group with recentVersion := version })
      (.done (group.methodId, version))

/-- The number of the object that the call makes when it has released the lock. -/
def startMethod (method : CompiledMethod) : Prog MethodCaches Nat :=
  .load fun s =>
    let newMethod := s.codeCacheManager.methods.length
    .update (fun s => { s with codeCacheManager := { s.codeCacheManager with
      methods := s.codeCacheManager.methods ++ [method]
      pending := newMethod :: s.codeCacheManager.pending } }) (.done newMethod)

/-- `_address_method_map[start_addr] = new_method`. -/
def fileMethod (methodId startAddr newMethod : Nat) : Prog MethodCaches Unit :=
  onGroup methodId fun group =>
    .update (setGroup methodId { group with
      addressMethodMap := group.addressMethodMap.insert startAddr newMethod }) (.done ())

/-- `assert(_method_range_set.insert(code_addr, code_addr + code_size - 1, new_method))`. -/
def insertRange (codeSize codeAddr newMethod : Nat) : Prog MethodCaches Unit :=
  .load fun s =>
    match s.codeCacheManager.methodRangeSet.insert codeAddr
        (sub64 (add64 codeAddr codeSize) 1) newMethod with
    | .ok (true, methodRangeSet) => .update (setMethodRangeSet methodRangeSet) (.done ())
    | _ => .abort

/-- The call is through with its object. -/
def endMethod (newMethod : Nat) : Prog MethodCaches Unit :=
  .update (fun s => { s with codeCacheManager := { s.codeCacheManager with
    pending := s.codeCacheManager.pending.erase newMethod } }) (.done ())

/-- `it->second->removeMethodByAddr(code_addr)`. -/
def removeFromGroup (methodId codeAddr : Nat) (group : CompiledMethodGroup) :
    Prog MethodCaches Unit :=
  let (group, deleted) := CodeCacheManager.removeMethodByAddr group codeAddr
  .update (fun s => { s with codeCacheManager := { s.codeCacheManager with
      deleted := deleted ++ s.codeCacheManager.deleted } })
    (.update (setGroup methodId group) (.done ()))

/-- `assert(_method_range_set.remove(code_addr))`. -/
def removeRange (codeAddr : Nat) : Prog MethodCaches Unit :=
  .load fun s =>
    match s.codeCacheManager.methodRangeSet.remove codeAddr with
    | (true, methodRangeSet) => .update (setMethodRangeSet methodRangeSet) (.done ())
    | (false, _) => .abort

/-! ### Calls

A call is its body between the constructor and the destructor of a `LockScope`. `addMethod`
releases the lock in its middle by `unsetLock` and takes it again by `setLock`. -/

/-- What `addMethod` does once it has the lock again. -/
def addMethodRest (methodId codeSize codeAddr newMethod : Nat) : Prog MethodCaches Answer := do
  fileMethod methodId codeAddr newMethod
  insertRange codeSize codeAddr newMethod
  endMethod newMethod
  return .method (some newMethod)

/-- `CodeCacheManager::addMethod`, without its `LockScope`. -/
def addMethodBody (methodId codeSize codeAddr : Nat) : Prog MethodCaches Answer := do
  findGroup methodId
  let (groupId, version) ← takeVersion methodId
  let newMethod ← startMethod ⟨groupId, version, codeSize, codeAddr⟩
  unsetLock
  setLock
  addMethodRest methodId codeSize codeAddr newMethod

/-- `CodeCacheManager::removeMethod`, without its `LockScope`. -/
def removeMethodBody (methodId codeAddr : Nat) : Prog MethodCaches Answer :=
  .load fun s =>
    match s.codeCacheManager.methodIdMap.lookup methodId with
    | none => return .nothing
    | some group => do
      removeFromGroup methodId codeAddr group
      removeRange codeAddr
      return .nothing

/-- `CodeCacheManager::addMethodAndRemoveFromUncompiledSet`, without its `LockScope`. -/
def addAndRemoveBody (methodId : Nat) : Prog MethodCaches Answer :=
  .update (fun s => { s with
      uncompiledMethodCache := s.uncompiledMethodCache.removeMethod methodId }) do
    findGroup methodId
    return .method none

/-- `CodeCacheManager::checkAndMoveMethodToUncompiledSet`, without its `LockScope`. -/
def checkAndMoveBody (methodId : Nat) : Prog MethodCaches Answer :=
  .load fun s =>
    match s.codeCacheManager.methodIdMap.lookup methodId with
    | none =>
      .update (fun s => { s with
        uncompiledMethodCache := s.uncompiledMethodCache.addMethod methodId }) (.done .nothing)
    | some _ => .done .nothing

/-- A call between the constructor and the destructor of its `LockScope`. -/
def Call.body : Call → Prog MethodCaches Answer
  | .addMethod methodId codeSize codeAddr => addMethodBody methodId codeSize codeAddr
  | .addMethodAndRemoveFromUncompiledSet methodId => addAndRemoveBody methodId
  | .removeMethod methodId codeAddr => removeMethodBody methodId codeAddr
  | .checkAndMoveMethodToUncompiledSet methodId => checkAndMoveBody methodId
  | .getMethod addr => .load fun s => return .method (s.codeCacheManager.getMethod addr)
  | .getMethodById order methodId =>
    .load fun s => return .method (s.codeCacheManager.getMethodById order methodId)
  | .findMethodByAddr addr =>
    .load fun s => return .found (s.codeCacheManager.findMethodByAddr addr)

/-- A thread that makes some calls, with what the calls before them returned. -/
def makeCalls : List Call → List Answer → Prog MethodCaches (List Answer)
  | [], answers => .done answers
  | call :: calls, answers => do
    let answer ← call.body.withLock
    makeCalls calls (answers ++ [answer])

/-- Threads before their first calls. -/
def start (calls : ι → List Call) : System MethodCaches ι (List Answer) :=
  ⟨false, .new, fun i => makeCalls (calls i) []⟩

/-! ### Whole sections

The same calls once more, with each section as one step. `addMethod` is two steps with the
number of its object in between. -/

/-- A thread between two sections: the calls that have not returned, the object of a call of
`addMethod` that has released the lock, and what the calls before returned. -/
structure Caller where
  calls : List Call
  adding : Option Nat
  answers : List Answer

/-- The caches and the threads. -/
structure CallState (ι : Type) where
  caches : MethodCaches
  callers : ι → Caller

/-- The call at hand returns. -/
def Caller.returns (answer : Answer) (t : Caller) : Caller :=
  ⟨t.calls.tail, none, t.answers ++ [answer]⟩

/-- The next section of a thread. A section that fails ends the run, as a failed assertion ends
the process. -/
def Caller.runSection (s : MethodCaches) (t : Caller) : Except Fault (MethodCaches × Caller) :=
  match t.calls with
  | [] => .ok (s, t)
  | .addMethod methodId codeSize codeAddr :: _ =>
    match t.adding with
    | none =>
      (s.step (.codeCache (.beginAdd methodId codeSize codeAddr))).map fun s' =>
        (s', { t with adding := some s.codeCacheManager.methods.length })
    | some newMethod =>
      (s.step (.codeCache (.finishAdd newMethod))).map fun s' =>
        (s', t.returns (.method (some newMethod)))
  | .removeMethod methodId codeAddr :: _ =>
    (s.step (.codeCache (.removeMethod methodId codeAddr))).map fun s' => (s', t.returns .nothing)
  | .addMethodAndRemoveFromUncompiledSet methodId :: _ =>
    (s.step (.addMethodAndRemoveFromUncompiledSet methodId)).map fun s' =>
      (s', t.returns (.method none))
  | .checkAndMoveMethodToUncompiledSet methodId :: _ =>
    (s.step (.checkAndMoveMethodToUncompiledSet methodId)).map fun s' => (s', t.returns .nothing)
  | .getMethod addr :: _ => .ok (s, t.returns (.method (s.codeCacheManager.getMethod addr)))
  | .getMethodById order methodId :: _ =>
    .ok (s, t.returns (.method (s.codeCacheManager.getMethodById order methodId)))
  | .findMethodByAddr addr :: _ =>
    .ok (s, t.returns (.found (s.codeCacheManager.findMethodByAddr addr)))

namespace CallState

/-- Before the first call. -/
def start (calls : ι → List Call) : CallState ι := ⟨.new, fun i => ⟨calls i, none, []⟩⟩

/-- The next section of one thread. -/
def step [DecidableEq ι] (t : CallState ι) (i : ι) : Except Fault (CallState ι) :=
  ((t.callers i).runSection t.caches).map fun (caches, caller) =>
    ⟨caches, Function.update t.callers i caller⟩

/-- The sections of the threads in the order of the schedule. -/
def run [DecidableEq ι] (t : CallState ι) (schedule : List ι) : Except Fault (CallState ι) :=
  schedule.foldlM step t

end CallState

end MethodCaches

end DroidPerf
