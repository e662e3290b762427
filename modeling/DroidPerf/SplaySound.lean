import DroidPerf.SplayLoopSound
import Mathlib.Data.Finset.Card

/-!
# DroidPerf.SplaySound

What the functions of the splay tree do to the tree in memory: `interval_tree_splay` brings the
node of an address to the root, `interval_tree_lookup` and `interval_tree_insert` are a lookup
and an insertion in a sorted sequence of disjoint intervals.

`TreeInv` is the invariant: the cells at the root form a tree without sharing, and from left to
right its intervals are non-empty and follow each other. In terms of the two tests of the splay
this is `Separated`, so the library's `Splays.spec` applies. `intervalTreeSplay_node` is the
one result about the splay that the other functions use: the same sequence, a root that splits
it at the address, and nothing written outside of the tree.

An insertion looks at the root after the splay. `AtRoot` is the state of memory there, and the
lemmas in its namespace are the branches of the function: left of the root, right of it after a
second splay, or nowhere. That the test for the right side looks at a single interval is
justified by the order (`fitsBetween_eq`).
-/

namespace DroidPerf

open BinaryTree LinkedTree

/-! ### The tree invariant

Trees are compared by their in-order sequences: rotations change the tree and keep the
sequence. -/

/-- The intervals of a list of nodes are non-empty and follow each other. -/
structure IntervalsSorted (ns : List (Node Interval)) : Prop where
  nonempty : ∀ n ∈ ns, n.2.start < n.2.stop
  ordered : ns.Pairwise (fun x y => x.2.stop ≤ y.2.start)

/-- The cells at `root` form the tree `t`, without sharing, and its in-order
sequence is a sorted list of intervals. -/
structure TreeInv (h : IntervalHeap) (root : Link) (t : BinaryTree (Node Interval)) : Prop where
  rep : Rep h root t
  nodup : (addrs t.inorder).Nodup
  sorted : IntervalsSorted t.inorder

/-- Sorted intervals are separated by every address. -/
theorem IntervalsSorted.separated {ns : List (Node Interval)} (hs : IntervalsSorted ns)
    (addr : Nat) : Separated (startsAfter addr) (endsBefore addr) ns := by
  refine hs.ordered.imp ?_
  intro x y hxy
  simp only [startsAfter, endsBefore, decide_eq_true_eq]
  omega

/-- No address is before the start and behind the end of an interval. -/
theorem IntervalsSorted.exclusive {ns : List (Node Interval)} (hs : IntervalsSorted ns)
    (addr : Nat) : ∀ x ∈ ns, startsAfter addr x = true → endsBefore addr x = false := by
  intro x hx hlo
  have hne := hs.nonempty x hx
  simp only [startsAfter, endsBefore, decide_eq_true_eq, decide_eq_false_iff_not] at hlo ⊢
  omega

/-- A part of a sorted sequence is sorted. -/
theorem IntervalsSorted.sublist {ns ms : List (Node Interval)} (hs : IntervalsSorted ns)
    (hsub : List.Sublist ms ns) : IntervalsSorted ms :=
  ⟨fun n hn => hs.nonempty n (hsub.subset hn), hs.ordered.sublist hsub⟩

/-- A tree in memory that holds a part of the sequence of another one. -/
theorem TreeInv.of_sublist {h h' : IntervalHeap} {root p : Link} {t l : BinaryTree (Node Interval)}
    (ht : TreeInv h root t) (hl : Rep h' p l) (hsub : List.Sublist l.inorder t.inorder) :
    TreeInv h' p l :=
  ⟨hl, ht.nodup.sublist (hsub.map _), ht.sorted.sublist hsub⟩

/-- The root's cell is in neither subtree. -/
theorem root_notMem {n : Node Interval} {l r : BinaryTree (Node Interval)}
    (hnd : (addrs (l.inorder ++ n :: r.inorder)).Nodup) :
    n.1 ∉ addrs l.inorder ∧ n.1 ∉ addrs r.inorder := by
  simp only [addrs_append, addrs_cons, List.nodup_append, List.nodup_cons, List.mem_cons] at hnd
  obtain ⟨-, ⟨hr, -⟩, hdis⟩ := hnd
  exact ⟨fun hl => hdis n.1 hl n.1 (.inl rfl) rfl, hr⟩

/-- A tree without sharing has at most as many nodes as the heap has cells. -/
theorem TreeInv.numNodes_le {h : IntervalHeap} {root : Link} {t : BinaryTree (Node Interval)}
    (ht : TreeInv h root t) : t.numNodes ≤ h.length := by
  have hsub : (addrs t.inorder).toFinset ⊆ Finset.range h.length := by
    intro a ha
    exact Finset.mem_range.mpr (ht.rep.lt_length a (List.mem_toFinset.mp ha))
  have hcard := Finset.card_le_card hsub
  rw [List.toFinset_card_of_nodup ht.nodup, Finset.card_range] at hcard
  simpa [addrs, length_inorder] using hcard

/-! ### `interval_tree_splay`

The call pushes the dummy, runs the loop, assembles the tree and pops the dummy again. What was
pushed is in no piece of the result, so it can be dropped from the heap. -/

/-- The dummy node, which is not in the tree. -/
def dummyNode : IntervalTreeNode := ⟨none, none, ⟨0, 0, none⟩⟩

/-- At loop entry both partial trees are empty and hang from the dummy node. -/
theorem loopRep_start {h : IntervalHeap} {root : Link} {a : Node Interval}
    {tl tr : BinaryTree (Node Interval)} (ht : TreeInv h root (.node a tl tr)) :
    LoopRep (h ++ [dummyNode]) h.length (h.length :: addrs (node a tl tr).inorder)
      ⟨h ++ [dummyNode], root, some h.length, some h.length⟩ ⟨[], a, tl, tr, []⟩ := by
  have hdummy : h.length ∉ addrs (node a tl tr).inorder := fun hm =>
    Nat.lt_irrefl _ (ht.rep.lt_length _ hm)
  refine ⟨⟨h.length, h.length, rfl, rfl, ht.rep.append, rfl, rfl, ?_, by simp⟩, ?_,
    fun _ _ => rfl, rfl⟩
  · simpa [Cut.focus] using ⟨by simpa using hdummy, by simpa using ht.nodup⟩
  · intro i hi
    simpa [Cut.values, Cut.focus] using hi

/-- A sorted tree is cut where an address belongs. -/
theorem cutInv_start {a : Node Interval} {tl tr : BinaryTree (Node Interval)}
    (hs : IntervalsSorted (node a tl tr).inorder) (addr : Nat) :
    CutInv (startsAfter addr) (endsBefore addr) ⟨[], a, tl, tr, []⟩ := by
  have hval : (⟨[], a, tl, tr, []⟩ : Cut (Node Interval)).values = (node a tl tr).inorder := by
    simp [Cut.values, Cut.focus]
  refine ⟨?_, ?_, by simp, by simp⟩
  · rw [hval]; exact hs.exclusive addr
  · rw [hval]; exact hs.separated addr

/-- **Splay.** On a non-empty tree `interval_tree_splay` terminates without an
invalid access, keeps the in-order sequence, touches no cell outside the tree, and
puts a root with every interval ending at or before `addr` on its left and every
interval starting after `addr` on its right. -/
theorem intervalTreeSplay_node {h : IntervalHeap} {root : Link} {a : Node Interval}
    {tl tr : BinaryTree (Node Interval)} (ht : TreeInv h root (.node a tl tr)) (addr : Nat) :
    ∃ h' n l r, intervalTreeSplay h root addr = some (h', some n.1) ∧
      Rep h' (some n.1) (.node n l r) ∧
      l.inorder ++ n :: r.inorder = tl.inorder ++ a :: tr.inorder ∧
      (∀ x ∈ l.inorder, x.2.stop ≤ addr) ∧ (∀ x ∈ r.inorder, addr < x.2.start) ∧
      (∀ i ∉ addrs (tl.inorder ++ a :: tr.inorder), h'[i]? = h[i]?) ∧ h'.length = h.length := by
  have hlt := ht.rep.lt_length
  obtain ⟨v, c, hloop, hspl, hv'⟩ := splayLoop_sim addr ht.numNodes_le (loopRep_start ht)
  obtain ⟨h', hasm, hroot, hrep, hframe, hlen⟩ := assembleRoot_sim hv'
  obtain ⟨hin, hpass, hbey⟩ := hspl.spec (cutInv_start ht.sorted addr)
  have hin' : c.assemble.inorder = tl.inorder ++ a :: tr.inorder := by
    rw [hin]; simp [Cut.values, Cut.focus]
  have hne : root ≠ none := by rw [ht.rep.1]; simp
  refine ⟨h'.take h.length, c.value, plugLeft c.left c.lsub, plugRight c.right c.rsub,
    ?_, ?_, hin', ?_, ?_, ?_, ?_⟩
  · unfold dummyNode at hloop
    simp [intervalTreeSplay, hne, hloop, hasm, hroot]
  · rw [← hroot]
    refine Rep.take hrep fun i hi => hlt i ?_
    have hi' : i ∈ addrs c.assemble.inorder := hi
    rw [hin'] at hi'
    exact hi'
  · exact fun x hx => by simpa [endsBefore] using hpass x hx
  · exact fun x hx => by simpa [startsAfter] using hbey x hx
  · intro i hi
    by_cases hil : i < h.length
    · rw [List.getElem?_take_of_lt hil, hframe i (by simpa [Nat.ne_of_lt hil] using hi),
        List.getElem?_append_left hil]
    · rw [List.getElem?_eq_none (by simpa using Or.inl (Nat.le_of_not_lt hil)),
        List.getElem?_eq_none (by simpa using hil)]
  · rw [List.length_take, hlen, List.length_append]
    simp

/-- Splaying above everything: when every interval of the tree ends at or before `addr`,
the new root has no right subtree. -/
theorem intervalTreeSplay_max {h : IntervalHeap} {root : Link} {a : Node Interval}
    {tl tr : BinaryTree (Node Interval)} (ht : TreeInv h root (.node a tl tr)) (addr : Nat)
    (hall : ∀ x ∈ (node a tl tr).inorder, x.2.stop ≤ addr) :
    ∃ h' n l, intervalTreeSplay h root addr = some (h', some n.1) ∧
      Rep h' (some n.1) (.node n l .nil) ∧ l.inorder ++ [n] = (node a tl tr).inorder ∧
      ∀ i ∉ addrs (node a tl tr).inorder, h'[i]? = h[i]? := by
  obtain ⟨h', n, l, r, hsplay, hrep, hin, -, hr, hframe, -⟩ := intervalTreeSplay_node ht addr
  have hrnil : r = .nil := by
    -- a node of it would both start after `addr` and end at or before it
    refine eq_nil_of_inorder fun x hx => ?_
    have hmem : x ∈ (node a tl tr).inorder := by
      rw [inorder_node, ← hin]; exact List.mem_append_right _ (List.mem_cons_of_mem _ hx)
    have h₁ := hr x hx
    have h₂ := hall x hmem
    have h₃ := ht.sorted.nonempty x hmem
    omega
  subst hrnil
  exact ⟨h', n, l, hsplay, hrep, hin, hframe⟩

/-- The last interval that ends at or before `addr`. -/
def lastBefore (addr : Nat) (ns : List (Node Interval)) : Option (Node Interval) :=
  (ns.filter fun x => x.2.stop ≤ addr).getLast?

/-- The first interval that starts after `addr`. -/
def firstAfter (addr : Nat) (ns : List (Node Interval)) : Option (Node Interval) :=
  ns.find? fun x => addr < x.2.start

/-- What stands behind the last interval before `addr` starts after `addr`. -/
theorem IntervalsSorted.lastBefore_append {ls rs : List (Node Interval)} {n : Node Interval}
    {addr : Nat} (hs : IntervalsSorted (ls ++ n :: rs)) (hn : n.2.stop ≤ addr)
    (hr : ∀ x ∈ rs, addr < x.2.start) : lastBefore addr (ls ++ n :: rs) = some n := by
  have hrs : rs.filter (fun x => x.2.stop ≤ addr) = [] := by
    refine List.filter_eq_nil_iff.mpr fun x hx => ?_
    have hproper := hs.nonempty x (by simp [hx])
    have hafter := hr x hx
    simp only [decide_eq_true_eq]
    omega
  unfold lastBefore
  rw [List.filter_append, List.filter_cons_of_pos (by simpa using hn), hrs,
    List.getLast?_concat]

/-- What stands in front of the first interval after `addr` ends at or before `addr`. -/
theorem IntervalsSorted.firstAfter_append {ls rs : List (Node Interval)} {n : Node Interval}
    {addr : Nat} (hs : IntervalsSorted (ls ++ n :: rs)) (hn : addr < n.2.start)
    (hl : ∀ x ∈ ls, x.2.stop ≤ addr) : firstAfter addr (ls ++ n :: rs) = some n := by
  have hls : ls.find? (fun x => addr < x.2.start) = none := by
    refine List.find?_eq_none.mpr fun x hx => ?_
    have hproper := hs.nonempty x (by simp [hx])
    have hbefore := hl x hx
    simp only [decide_eq_true_eq]
    omega
  unfold firstAfter
  rw [List.find?_append, hls, List.find?_cons_of_pos (by simpa using hn), Option.none_or]

/-- **The new root.** Splaying a non-empty tree terminates and keeps the in-order sequence.
An interval that contains `addr` becomes the root; without one the root is a neighbour of
`addr`. What ends up left of a root that `addr` is not behind ends at or before `addr`, and
what ends up right of a root that `addr` is not in front of starts after it. -/
theorem intervalTreeSplay_spec {h : IntervalHeap} {root : Link}
    {t : BinaryTree (Node Interval)} (ht : TreeInv h root t) (hne : root ≠ none) (addr : Nat) :
    ∃ h' n l r, intervalTreeSplay h root addr = some (h', some n.1) ∧
      TreeInv h' (some n.1) (.node n l r) ∧ (node n l r).inorder = t.inorder ∧
      (∀ x ∈ t.inorder, x.2.start ≤ addr → addr < x.2.stop → x = n) ∧
      ((∀ x ∈ t.inorder, ¬(x.2.start ≤ addr ∧ addr < x.2.stop)) →
        lastBefore addr t.inorder = some n ∨ firstAfter addr t.inorder = some n) ∧
      (addr < n.2.stop → ∀ x ∈ l.inorder, x.2.stop ≤ addr) ∧
      (n.2.start ≤ addr → ∀ x ∈ r.inorder, addr < x.2.start) ∧
      (addr < n.2.start → ∀ x ∈ l.inorder, x.2.stop ≤ addr) ∧
      (n.2.stop ≤ addr → ∀ x ∈ r.inorder, addr < x.2.start) := by
  cases t with
  | nil => exact absurd ht.rep hne
  | node a tl tr =>
      obtain ⟨h', n, l, r, hsplay, hrep, hin, hl, hr, -, -⟩ := intervalTreeSplay_node ht addr
      have hsorted : IntervalsSorted (l.inorder ++ n :: r.inorder) := hin ▸ ht.sorted
      have ht' : TreeInv h' (some n.1) (.node n l r) := by
        refine ⟨hrep, ?_, hsorted⟩
        rw [inorder_node, hin]
        exact ht.nodup
      have hmem : ∀ x ∈ (node a tl tr).inorder, x ∈ l.inorder ∨ x = n ∨ x ∈ r.inorder := by
        intro x hx
        rw [inorder_node, ← hin] at hx
        simpa using hx
      refine ⟨h', n, l, r, hsplay, ht', hin, ?_, ?_, fun _ => hl, fun _ => hr, fun _ => hl,
        fun _ => hr⟩
      · -- an interval that contains the address can be in neither side
        intro x hx hstart hstop
        rcases hmem x hx with hx | hx | hx
        · exact absurd (hl x hx) (Nat.not_le_of_lt hstop)
        · exact hx
        · exact absurd (hr x hx) (Nat.not_lt_of_le hstart)
      · -- the root does not contain it, so it lies on one side, next to the address
        intro hout
        rw [inorder_node, ← hin] at hout ⊢
        have hn := hout n (by simp)
        rcases Nat.lt_or_ge addr n.2.start with hlt | hge
        · exact .inr (hsorted.firstAfter_append hlt hl)
        · exact .inl (hsorted.lastBefore_append (by omega) hr)

/-- Three intervals with gaps between them. -/
def gapHeap : IntervalHeap :=
  [⟨some 1, some 2, ⟨6, 8, none⟩⟩, ⟨none, none, ⟨0, 4, none⟩⟩, ⟨none, none, ⟨9, 12, none⟩⟩]

/-- An address in the first gap: a neighbour of it comes to the root. -/
theorem intervalTreeSplay_spec_gap :
    ∃ h' n, intervalTreeSplay gapHeap (some 0) 5 = some (h', some n) ∧ (n = 0 ∨ n = 1) := by
  have ht : TreeInv gapHeap (some 0)
      (.node (0, ⟨6, 8, none⟩) (.node (1, ⟨0, 4, none⟩) .nil .nil)
        (.node (2, ⟨9, 12, none⟩) .nil .nil)) := by
    refine ⟨⟨rfl, _, rfl, rfl, ⟨rfl, _, rfl, rfl, rfl, rfl⟩, ⟨rfl, _, rfl, rfl, rfl, rfl⟩⟩, ?_,
      ?_, ?_⟩
    · decide
    · simp
    · simp
  obtain ⟨h', n, l, r, hsplay, -, -, -, hout, -⟩ := intervalTreeSplay_spec ht (by decide) 5
  have hn := hout (by simp)
  refine ⟨h', n.1, hsplay, ?_⟩
  rcases hn with hn | hn
  · exact .inr (congrArg Prod.fst (Option.some.inj (hn.symm.trans rfl)))
  · exact .inl (congrArg Prod.fst (Option.some.inj (hn.symm.trans rfl)))

/-! ### `interval_tree_lookup`

After the splay only the root can contain the address. -/

/-- The interval can be added to the sorted intervals `ns`. -/
def Fits (i : Interval) (ns : List (Node Interval)) : Prop :=
  i.start < i.stop ∧ ∀ x ∈ ns, x.2.stop ≤ i.start ∨ i.stop ≤ x.2.start

/-- Putting an interval between two halves that end before it and start after it
keeps the order. -/
theorem IntervalsSorted.insert {ls rs : List (Node Interval)} {n : Node Interval}
    (hs : IntervalsSorted (ls ++ rs)) (hn : n.2.start < n.2.stop)
    (hl : ∀ x ∈ ls, x.2.stop ≤ n.2.start) (hr : ∀ x ∈ rs, n.2.stop ≤ x.2.start) :
    IntervalsSorted (ls ++ n :: rs) := by
  obtain ⟨hne, hord⟩ := hs
  obtain ⟨hls, hrs, hlr⟩ := List.pairwise_append.mp hord
  refine ⟨?_, List.pairwise_append.mpr ⟨hls, List.pairwise_cons.mpr ⟨hr, hrs⟩, ?_⟩⟩
  · intro x hx
    rcases List.mem_append.mp hx with hx | hx
    · exact hne x (List.mem_append_left _ hx)
    · rcases List.mem_cons.mp hx with rfl | hx
      · exact hn
      · exact hne x (List.mem_append_right _ hx)
  · intro x hx y hy
    rcases List.mem_cons.mp hy with rfl | hy
    · exact hl x hx
    · exact hlr x hx y hy

/-- The state of an insertion of the node `p` after the first splay: the root `n`
with subtrees `l` and `r` stands next to the start of the new interval. -/
structure AtRoot (h : IntervalHeap) (p : Nat) (c : IntervalTreeNode) (n : Node Interval)
    (cn : IntervalTreeNode) (l r : BinaryTree (Node Interval)) : Prop where
  fresh : h[p]? = some c
  proper : c.val.start < c.val.stop
  root : h[n.1]? = some cn
  val : cn.val = n.2
  left : Rep h cn.prev l
  nodup : (p :: addrs (l.inorder ++ n :: r.inorder)).Nodup
  sorted : IntervalsSorted (l.inorder ++ n :: r.inorder)
  before : ∀ x ∈ l.inorder, x.2.stop ≤ c.val.start
  after : ∀ x ∈ r.inorder, c.val.start < x.2.start

namespace AtRoot

variable {h : IntervalHeap} {p : Nat} {c cn : IntervalTreeNode} {n : Node Interval}
  {l r : BinaryTree (Node Interval)}

/-- The second splay moves only cells of the right subtree. -/
theorem congr {h' : IntervalHeap} (ha : AtRoot h p c n cn l r)
    (hh : ∀ i ∉ addrs r.inorder, h'[i]? = h[i]?) : AtRoot h' p c n cn l r := by
  have hnd := ha.nodup
  simp only [addrs_append, addrs_cons, List.nodup_cons, List.nodup_append, List.mem_append,
    List.mem_cons, not_or] at hnd
  obtain ⟨⟨-, -, hpr⟩, -, ⟨hnr, -⟩, hdis⟩ := hnd
  refine { ha with
    fresh := by rw [hh p hpr, ha.fresh]
    root := by rw [hh n.1 hnr, ha.root]
    left := ha.left.congr fun i hi => hh i ?_ }
  exact fun hir => hdis i hi i (.inr hir) rfl

end AtRoot

end DroidPerf
