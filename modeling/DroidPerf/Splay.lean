import DroidPerf.Lib.LinkedTree

/-!
# DroidPerf.Splay

The interval splay tree of `splay.cpp`, as a program over a heap of linked nodes.

A `struct splay_interval_s` is a `LinkedTree.Cell`: its links keep the source's
names (`RIGHT(n)` is `next`, `LEFT(n)` is `prev`) and its payload holds `start`,
`end` and the context pointer. Addresses are compared and never computed with, so
a `void *` is a natural number. The node `dummy` that `interval_tree_splay` keeps
on its stack is a cell pushed at the end of the heap for the duration of the call.

Every function returns `none` when it would dereference a null or dangling
pointer. The `for (;;)` of the splay is given as many rounds as the heap has
cells; running out of them is `none` too.
-/

namespace DroidPerf

open LinkedTree

/-- The payload of a `splay_interval_s`. -/
structure Interval where
  start : Nat
  /-- `end` in the source. -/
  stop : Nat
  nodeCtxt : Link
  deriving DecidableEq, Repr

/-- `interval_tree_node`. -/
abbrev IntervalTreeNode := Cell Interval

/-- The nodes in memory. -/
abbrev IntervalHeap := Heap Interval

/-! ### `interval_tree_splay`

The local variables of the function are a record, and each group of statements with a comment
of its own in the source is a definition on it. The body of the loop is one function, the loop
is a recursion on the rounds that are left. -/

/-- The local variables of `interval_tree_splay` and the heap they point into. -/
structure SplayVars where
  heap : IntervalHeap
  root : Link
  ltreeMax : Link
  rtreeMin : Link
  deriving DecidableEq, Repr

/-- `LEFT(rtree_min) = root; rtree_min = root; root = y;` -/
def linkRightTree (v : SplayVars) (y : Link) : Option SplayVars := do
  let h ← write v.heap .prev v.rtreeMin v.root
  return { v with heap := h, rtreeMin := v.root, root := y }

/-- `RIGHT(ltree_max) = root; ltree_max = root; root = y;` -/
def linkLeftTree (v : SplayVars) (y : Link) : Option SplayVars := do
  let h ← write v.heap .next v.ltreeMax v.root
  return { v with heap := h, ltreeMax := v.root, root := y }

/-- One pass through the body of the `for (;;)`: `.inl` after a `break`, `.inr` at the end of
the body. The two halves mirror each other; each reads the child that is next on the way and
rotates if the grandchild lies on the same side. -/
def splayRound (addr : Nat) (v : SplayVars) : Option (SplayVars ⊕ SplayVars) := do
  let n ← read v.heap v.root
  if addr < n.val.start then
    let y := n.prev
    if y = none then return .inl v
    let ny ← read v.heap y
    if addr < ny.val.start then
      -- rotate right
      let h ← write v.heap .prev v.root ny.next
      let h ← write h .next y v.root
      let v := { v with heap := h, root := y }
      let y := (← read v.heap v.root).prev
      if y = none then return .inl v
      return .inr (← linkRightTree v y)
    else return .inr (← linkRightTree v y)
  else if n.val.stop ≤ addr then
    let y := n.next
    if y = none then return .inl v
    let ny ← read v.heap y
    if ny.val.stop ≤ addr then
      -- rotate left
      let h ← write v.heap .next v.root ny.prev
      let h ← write h .prev y v.root
      let v := { v with heap := h, root := y }
      let y := (← read v.heap v.root).next
      if y = none then return .inl v
      return .inr (← linkLeftTree v y)
    else return .inr (← linkLeftTree v y)
  else return .inl v

/-- The `for (;;)` loop. A round that goes on has a smaller tree to search, so the cells of the
heap are rounds enough. -/
def splayLoop (addr : Nat) : Nat → SplayVars → Option SplayVars
  | 0, _ => none
  | fuel + 1, v =>
    match splayRound addr v with
    | none => none
    | some (.inl v') => some v'
    | some (.inr v') => splayLoop addr fuel v'

/-- "Assemble the new root": close the two partial trees and hang them below the
root. `d` is the address of `dummy`. -/
def assembleRoot (d : Nat) (v : SplayVars) : Option IntervalHeap := do
  let n ← read v.heap v.root
  let h ← write v.heap .next v.ltreeMax n.prev
  let n ← read h v.root
  let h ← write h .prev v.rtreeMin n.next
  let dummy ← read h (some d)
  let h ← write h .prev v.root dummy.next
  let dummy ← read h (some d)
  write h .next v.root dummy.prev

/-- `SplayTree::interval_tree_splay`: the heap after the call and the new root.
`dummy` is uninitialised on entry; its links are written before they are read. -/
def intervalTreeSplay (h : IntervalHeap) (root : Link) (addr : Nat) :
    Option (IntervalHeap × Link) :=
  if root = none then some (h, none)
  else do
    let d := h.length
    let dummy : IntervalTreeNode := ⟨none, none, ⟨0, 0, none⟩⟩
    let v ← splayLoop addr h.length ⟨h ++ [dummy], root, some d, some d⟩
    let h' ← assembleRoot d v
    return (h'.take d, v.root)

/-! ### Lookup and insertion

Both bring the place of an address to the root and look at what is there. What a function
leaves in memory and what it returns are in its result together. -/

/-- What `interval_tree_lookup` leaves behind: the heap, `*root`, the returned
node and `*startaddress`. -/
structure LookupResult where
  heap : IntervalHeap
  root : Link
  ret : Link
  startaddress : Nat
  deriving DecidableEq, Repr

/-- `SplayTree::interval_tree_lookup`. -/
def intervalTreeLookup (h : IntervalHeap) (root : Link) (addr startaddress : Nat) :
    Option LookupResult := do
  let (h, root) ← intervalTreeSplay h root addr
  if root = none then return ⟨h, root, none, startaddress⟩
  let n ← read h root
  if n.val.start ≤ addr ∧ addr < n.val.stop then return ⟨h, root, root, n.val.start⟩
  return ⟨h, root, none, startaddress⟩

/-- What `interval_tree_insert` leaves behind: the heap, `*root` and the returned
status (0 inserted, 1 refused). -/
structure InsertResult where
  heap : IntervalHeap
  root : Link
  ret : Nat
  deriving DecidableEq, Repr

/-- `END(*root) <= START(node) && (t == NULL || END(node) <= START(t))`. -/
def fitsBetween (h : IntervalHeap) (root node : Interval) (t : Link) : Option Bool :=
  if root.stop ≤ node.start then
    if t = none then some true
    else (read h t).map fun tn => decide (node.stop ≤ tn.val.start)
  else some false

/-- `SplayTree::interval_tree_insert`. The node goes above the root, on the side the splay
tells, or nowhere; in the last case the right subtree was splayed for the test and has to be
hung back. -/
def intervalTreeInsert (h : IntervalHeap) (root node : Link) : Option InsertResult := do
  let n ← read h node
  -- Reversed order or zero-length.
  if n.val.stop ≤ n.val.start then return ⟨h, root, 1⟩
  -- Empty tree.
  if root = none then
    let h ← write h .prev node none
    let h ← write h .next node none
    return ⟨h, node, 0⟩
  -- Insert left of root.
  let (h, root) ← intervalTreeSplay h root n.val.start
  let rn ← read h root
  if n.val.stop ≤ rn.val.start then
    let h ← write h .prev node rn.prev
    let h ← write h .next node root
    let h ← write h .prev root none
    return ⟨h, node, 0⟩
  -- Insert right of root.
  let (h, t) ← intervalTreeSplay h rn.next rn.val.start
  if ← fitsBetween h rn.val n.val t then
    let h ← write h .prev node root
    let h ← write h .next node t
    let h ← write h .next root none
    return ⟨h, node, 0⟩
  -- Must overlap with something in the tree.
  let h ← write h .next root t
  return ⟨h, root, 1⟩

/-! ### Deletion

The tree is cut twice, at the start and at the end of the interval, and the outer pieces are
put together. -/

/-- What `interval_tree_delete` leaves behind: the heap, `*root` and `*del_tree`. -/
structure DeleteResult where
  heap : IntervalHeap
  root : Link
  delTree : Link
  deriving DecidableEq, Repr

/-- The first split of `interval_tree_delete`: the heap, `ltree` and what is left of `t`. -/
def splitLess (h : IntervalHeap) (t : Link) (start : Nat) : Option (IntervalHeap × Link × Link) := do
  let (h, t) ← intervalTreeSplay h t start
  let tn ← read h t
  if tn.val.stop ≤ start then
    let h ← write h .next t none
    return (h, t, tn.next)
  else
    let h ← write h .prev t none
    return (h, tn.prev, t)

/-- The second split: the heap, `*del_tree` and `rtree`. -/
def splitGreater (h : IntervalHeap) (t : Link) (stop : Nat) :
    Option (IntervalHeap × Link × Link) := do
  let (h, t) ← intervalTreeSplay h t stop
  if t = none then return (h, none, none)
  let tn ← read h t
  if stop ≤ tn.val.start then
    let h ← write h .prev t none
    return (h, tn.prev, t)
  else
    let h ← write h .next t none
    return (h, t, tn.next)

/-- "Combine the left and right pieces to make the new tree": the heap and `*root`. -/
def combinePieces (h : IntervalHeap) (ltree rtree : Link) (stop : Nat) :
    Option (IntervalHeap × Link) := do
  if ltree = none then return (h, rtree)
  if rtree = none then return (h, ltree)
  let (h, root) ← intervalTreeSplay h ltree stop
  let h ← write h .next root rtree
  return (h, root)

/-- `SplayTree::interval_tree_delete`. Only links are written, so `node->start` and
`node->end` are read once. -/
def intervalTreeDelete (h : IntervalHeap) (root node : Link) : Option DeleteResult := do
  -- Empty tree.
  if root = none then return ⟨h, none, none⟩
  let n ← read h node
  -- Split the tree into three pieces.
  let (h, ltree, t) ← splitLess h root n.val.start
  let (h, delTree, rtree) ← splitGreater h t n.val.stop
  let (h, root) ← combinePieces h ltree rtree n.val.stop
  return ⟨h, root, delTree⟩

/-- `SplayTree::node_make`: a fresh node and its address. The heap grows at its end, so a new
node is in no tree. -/
def nodeMake (h : IntervalHeap) (start stop : Nat) (ctxt : Link) : IntervalHeap × Link :=
  (h ++ [⟨none, none, ⟨start, stop, ctxt⟩⟩], some h.length)

end DroidPerf
