import DroidPerf.SplaySound

/-!
# DroidPerf.SplayDeleteSound

`interval_tree_delete` takes the intervals that meet a given one out of the tree, into a tree
of their own (`intervalTreeDelete_spec`).

The function cuts the tree twice. A cut (`SplitOf`) leaves two trees whose in-order sequences
follow each other, and writes cells of the tree only, so the pieces that were cut off before
stay as they are.

What the two cuts say of the pieces is about end points: the first takes off what ends at or
before the start, the second what starts at or after the end. Together they split the sequence
into three parts of which the middle one meets the interval (`filter_overlaps`). Putting the
outer pieces together splays the left one at the end, which leaves its root without a right
subtree.
-/

namespace DroidPerf

open BinaryTree LinkedTree

/-- The tree with the sequence `ns` in the heap `h` has been cut: `p` and `q` are the
roots of the two pieces in the heap `h'`. -/
structure SplitOf (h h' : IntervalHeap) (ns : List (Node Interval)) (p q : Link)
    (l r : BinaryTree (Node Interval)) : Prop where
  left : Rep h' p l
  right : Rep h' q r
  inorder : l.inorder ++ r.inorder = ns
  frame : ∀ i ∉ addrs ns, h'[i]? = h[i]?

/-- The interval meets `[start, stop)`. -/
def Interval.overlaps (start stop : Nat) (i : Interval) : Bool :=
  decide (i.start < stop ∧ start < i.stop)

section Cut

variable {h h₁ h' : IntervalHeap} {n : Node Interval} {l r : BinaryTree (Node Interval)}

/-- What the cut does comes on top of what was done to the tree before. -/
theorem SplitOf.after {ns : List (Node Interval)} {p q : Link} (hs : SplitOf h₁ h' ns p q l r)
    (hframe : ∀ i ∉ addrs ns, h₁[i]? = h[i]?) : SplitOf h h' ns p q l r :=
  { hs with frame := fun i hi => (hs.frame i hi).trans (hframe i hi) }

/-- A cut right of the root: the root keeps its left subtree, and its right one stands alone. -/
theorem cut_next (hrep : Rep h (some n.1) (.node n l r))
    (hnd : (addrs (l.inorder ++ n :: r.inorder)).Nodup) :
    ∃ c h', read h (some n.1) = some c ∧ c.val = n.2 ∧ write h .next (some n.1) none = some h' ∧
      SplitOf h h' (l.inorder ++ n :: r.inorder) (some n.1) c.next (.node n l .nil) r := by
  obtain ⟨hl, hr⟩ := root_notMem hnd
  have hnil : Rep h none (nil : BinaryTree (Node Interval)) := rfl
  obtain ⟨h', hwrite, hrep', hframe⟩ := hrep.write_next hnil ⟨hl, by simp⟩
  obtain ⟨-, c, hc, hval, -, hright⟩ := hrep
  refine ⟨c, h', read_some hc, hval, hwrite, hrep', ?_, by simp, ?_⟩
  · refine hright.congr fun i hi => hframe i ?_
    rintro rfl
    exact hr hi
  · refine fun i hi => hframe i ?_
    rintro rfl
    exact hi (by simp)

/-- A cut left of the root. -/
theorem cut_prev (hrep : Rep h (some n.1) (.node n l r))
    (hnd : (addrs (l.inorder ++ n :: r.inorder)).Nodup) :
    ∃ c h', read h (some n.1) = some c ∧ c.val = n.2 ∧ write h .prev (some n.1) none = some h' ∧
      SplitOf h h' (l.inorder ++ n :: r.inorder) c.prev (some n.1) l (.node n .nil r) := by
  obtain ⟨hl, hr⟩ := root_notMem hnd
  have hnil : Rep h none (nil : BinaryTree (Node Interval)) := rfl
  obtain ⟨h', hwrite, hrep', hframe⟩ := hrep.write_prev hnil ⟨by simp, hr⟩
  obtain ⟨-, c, hc, hval, hleft, -⟩ := hrep
  refine ⟨c, h', read_some hc, hval, hwrite, ?_, hrep', by simp, ?_⟩
  · refine hleft.congr fun i hi => hframe i ?_
    rintro rfl
    exact hl hi
  · refine fun i hi => hframe i ?_
    rintro rfl
    exact hi (by simp)

end Cut

section Delete

variable {h : IntervalHeap} {root : Link} {t : BinaryTree (Node Interval)}

/-- The first split takes off the intervals that end at or before `start`. -/
theorem splitLess_spec (ht : TreeInv h root t) (hroot : root ≠ none) (start : Nat) :
    ∃ h' p q l r, splitLess h root start = some (h', p, q) ∧ SplitOf h h' t.inorder p q l r ∧
      (∀ x ∈ l.inorder, x.2.stop ≤ start) ∧ ∀ x ∈ r.inorder, start < x.2.stop := by
  cases t with
  | nil => exact absurd ht.rep hroot
  | node a tl tr =>
      obtain ⟨h₁, n, l, r, hsplay, hrep, hin, hl, hr, hframe, -⟩ := intervalTreeSplay_node ht start
      have hsorted : IntervalsSorted (l.inorder ++ n :: r.inorder) := hin ▸ ht.sorted
      have hnd : (addrs (l.inorder ++ n :: r.inorder)).Nodup := hin ▸ ht.nodup
      have hrstop : ∀ x ∈ r.inorder, start < x.2.stop := by
        intro x hx
        have hstart := hr x hx
        have hne := hsorted.nonempty x (by simp [hx])
        omega
      rw [← hin] at hframe
      rw [inorder_node, ← hin]
      by_cases hle : n.2.stop ≤ start
      · obtain ⟨c, h', hc, hval, hwrite, hcut⟩ := cut_next hrep hnd
        refine ⟨h', _, _, _, _, ?_, hcut.after hframe, ?_, hrstop⟩
        · simp [splitLess, hsplay, hc, hval, hle, hwrite]
        · intro x hx
          have hx : x ∈ l.inorder ∨ x = n := by simpa using hx
          rcases hx with hx | rfl
          · exact hl x hx
          · exact hle
      · obtain ⟨c, h', hc, hval, hwrite, hcut⟩ := cut_prev hrep hnd
        refine ⟨h', _, _, _, _, ?_, hcut.after hframe, hl, ?_⟩
        · simp [splitLess, hsplay, hc, hval, hle, hwrite]
        · intro x hx
          have hx : x = n ∨ x ∈ r.inorder := by simpa using hx
          rcases hx with rfl | hx
          · omega
          · exact hrstop x hx

/-- The second split takes off the intervals that start at or after `stop`. -/
theorem splitGreater_spec (ht : TreeInv h root t) (stop : Nat) :
    ∃ h' p q l r, splitGreater h root stop = some (h', p, q) ∧ SplitOf h h' t.inorder p q l r ∧
      (∀ x ∈ l.inorder, x.2.start < stop) ∧ ∀ x ∈ r.inorder, stop ≤ x.2.start := by
  cases t with
  | nil =>
      obtain rfl : root = none := ht.rep
      exact ⟨h, none, none, .nil, .nil, by simp [splitGreater, intervalTreeSplay],
        ⟨rfl, rfl, rfl, fun _ _ => rfl⟩, by simp, by simp⟩
  | node a tl tr =>
      obtain ⟨h₁, n, l, r, hsplay, hrep, hin, hl, hr, hframe, -⟩ := intervalTreeSplay_node ht stop
      have hsorted : IntervalsSorted (l.inorder ++ n :: r.inorder) := hin ▸ ht.sorted
      have hnd : (addrs (l.inorder ++ n :: r.inorder)).Nodup := hin ▸ ht.nodup
      have hlstart : ∀ x ∈ l.inorder, x.2.start < stop := by
        intro x hx
        have hstop := hl x hx
        have hne := hsorted.nonempty x (by simp [hx])
        omega
      have hrstart : ∀ x ∈ r.inorder, stop ≤ x.2.start := fun x hx => (hr x hx).le
      rw [← hin] at hframe
      rw [inorder_node, ← hin]
      by_cases hle : stop ≤ n.2.start
      · -- the root is the first interval of the right piece
        obtain ⟨c, h', hc, hval, hwrite, hcut⟩ := cut_prev hrep hnd
        refine ⟨h', _, _, _, _, ?_, hcut.after hframe, hlstart, ?_⟩
        · simp [splitGreater, hsplay, hc, hval, hle, hwrite]
        · intro x hx
          have hx : x = n ∨ x ∈ r.inorder := by simpa using hx
          rcases hx with rfl | hx
          · exact hle
          · exact hrstart x hx
      · -- the root is the last interval of the left piece
        obtain ⟨c, h', hc, hval, hwrite, hcut⟩ := cut_next hrep hnd
        refine ⟨h', _, _, _, _, ?_, hcut.after hframe, ?_, hrstart⟩
        · simp [splitGreater, hsplay, hc, hval, hle, hwrite]
        · intro x hx
          have hx : x ∈ l.inorder ∨ x = n := by simpa using hx
          rcases hx with hx | rfl
          · exact hlstart x hx
          · omega

/-- The two pieces are put together: everything on the left ends at or before `stop`, so
the splay leaves its root without a right subtree. -/
theorem combinePieces_spec {p q : Link} {l r : BinaryTree (Node Interval)} {stop : Nat}
    (hl : TreeInv h p l) (hr : Rep h q r) (hnd : (addrs (l.inorder ++ r.inorder)).Nodup)
    (hstop : ∀ x ∈ l.inorder, x.2.stop ≤ stop) :
    ∃ h' root t, combinePieces h p q stop = some (h', root) ∧ Rep h' root t ∧
      t.inorder = l.inorder ++ r.inorder ∧ ∀ i ∉ addrs l.inorder, h'[i]? = h[i]? := by
  cases l with
  | nil =>
      obtain rfl : p = none := hl.rep
      exact ⟨h, q, r, by simp [combinePieces], hr, by simp, fun _ _ => rfl⟩
  | node a tl tr =>
      have hp : p ≠ none := by rw [hl.rep.1]; simp
      cases r with
      | nil =>
          obtain rfl : q = none := hr
          exact ⟨h, p, node a tl tr, by simp [combinePieces, hp], hl.rep, by simp, fun _ _ => rfl⟩
      | node b rl rr =>
          have hq : q ≠ none := by rw [hr.1]; simp
          obtain ⟨h₁, n, l', hsplay, hrep, hin, hframe⟩ := intervalTreeSplay_max hl stop hstop
          rw [← hin, addrs_append] at hnd
          obtain ⟨hndl, -, hapart⟩ := List.nodup_append.mp hnd
          have hdis : ∀ i ∈ addrs (node b rl rr).inorder, i ∉ addrs (l'.inorder ++ [n]) :=
            fun i hi hi' => hapart i hi' i hi rfl
          have hr₁ : Rep h₁ q (node b rl rr) :=
            hr.congr fun i hi => hframe i (hin ▸ hdis i hi)
          have hnl : n.1 ∉ addrs l'.inorder := (root_notMem (r := .nil) hndl).1
          have hnr : n.1 ∉ addrs (node b rl rr).inorder := fun hi => hdis n.1 hi (by simp)
          obtain ⟨h', hwrite, hrep', hframe'⟩ := hrep.write_next hr₁ ⟨hnl, hnr⟩
          refine ⟨h', some n.1, _, ?_, hrep', by simp [← hin], ?_⟩
          · simp [combinePieces, hp, hq, hsplay, hwrite]
          · intro i hi
            have hne : i ≠ n.1 := by
              rintro rfl
              exact hi (by simp [← hin])
            rw [hframe' i hne]
            exact hframe i hi

/-- A sequence of which the middle part meets `[start, stop)` and the rest does not. -/
theorem filter_overlaps {ls ds rs : List (Node Interval)} {start stop : Nat}
    (hl : ∀ x ∈ ls, x.2.stop ≤ start)
    (hd : ∀ x ∈ ds, x.2.start < stop ∧ start < x.2.stop)
    (hr : ∀ x ∈ rs, stop ≤ x.2.start) :
    (ls ++ (ds ++ rs)).filter (fun x => x.2.overlaps start stop) = ds ∧
      (ls ++ (ds ++ rs)).filter (fun x => !x.2.overlaps start stop) = ls ++ rs := by
  have hlno : ∀ x ∈ ls, x.2.overlaps start stop = false := by
    intro x hx
    have hstop := hl x hx
    simp only [Interval.overlaps, decide_eq_false_iff_not]
    omega
  have hdyes : ∀ x ∈ ds, x.2.overlaps start stop = true := by
    intro x hx
    simpa [Interval.overlaps] using hd x hx
  have hrno : ∀ x ∈ rs, x.2.overlaps start stop = false := by
    intro x hx
    have hstart := hr x hx
    simp only [Interval.overlaps, decide_eq_false_iff_not]
    omega
  constructor
  · rw [List.filter_append, List.filter_append, List.filter_eq_nil_iff.mpr (by simpa using hlno),
      List.filter_eq_self.mpr hdyes, List.filter_eq_nil_iff.mpr (by simpa using hrno)]
    simp
  · rw [List.filter_append, List.filter_append, List.filter_eq_self.mpr (by simpa using hlno),
      List.filter_eq_nil_iff.mpr (by simpa using hdyes),
      List.filter_eq_self.mpr (by simpa using hrno)]
    simp

/-- **Deletion.** `interval_tree_delete` runs without an invalid access and leaves two
sorted trees: `*del_tree` with the intervals that meet the node's, and `*root` with the
others. The node may be anywhere in memory, and cells outside the tree are not written. -/
theorem intervalTreeDelete_spec {node : Link} {c : IntervalTreeNode} (ht : TreeInv h root t)
    (hnode : read h node = some c) (hle : c.val.start ≤ c.val.stop) :
    ∃ res kept deleted, intervalTreeDelete h root node = some res ∧
      TreeInv res.heap res.root kept ∧ TreeInv res.heap res.delTree deleted ∧
      deleted.inorder = t.inorder.filter (fun x => x.2.overlaps c.val.start c.val.stop) ∧
      kept.inorder = t.inorder.filter (fun x => !x.2.overlaps c.val.start c.val.stop) ∧
      ∀ i ∉ addrs t.inorder, res.heap[i]? = h[i]? := by
  by_cases hroot : root = none
  · -- there is nothing to cut in an empty tree
    subst hroot
    have hnil := ht.rep.eq_nil
    subst hnil
    exact ⟨⟨h, none, none⟩, .nil, .nil, by simp [intervalTreeDelete], ht, ht, rfl, rfl,
      fun _ _ => rfl⟩
  obtain ⟨h₁, p, q, l, m, hless, hcut₁, hl, hm⟩ := splitLess_spec ht hroot c.val.start
  have hmsub : List.Sublist m.inorder t.inorder := hcut₁.inorder ▸ List.sublist_append_right _ _
  obtain ⟨h₂, d, q', del, r, hgreater, hcut₂, hdel, hr⟩ :=
    splitGreater_spec (ht.of_sublist hcut₁.right hmsub) c.val.stop
  have hin : t.inorder = l.inorder ++ (del.inorder ++ r.inorder) := by
    rw [hcut₂.inorder, hcut₁.inorder]
  have hlsub : List.Sublist l.inorder t.inorder := hin ▸ List.sublist_append_left _ _
  have hlrsub : List.Sublist (l.inorder ++ r.inorder) t.inorder :=
    hin ▸ (List.Sublist.refl _).append (List.sublist_append_right _ _)
  have hdsub : List.Sublist del.inorder t.inorder :=
    hin ▸ (List.sublist_append_left _ _).trans (List.sublist_append_right _ _)
  -- the left piece shares no cell with the rest, so neither is disturbed by the other
  have hapart : ∀ i ∈ addrs l.inorder, i ∉ addrs (del.inorder ++ r.inorder) := by
    intro i hi hi'
    have hnd := ht.nodup
    rw [hin, addrs_append] at hnd
    exact (List.nodup_append.mp hnd).2.2 i hi i hi' rfl
  have hl₂ : Rep h₂ p l := hcut₁.left.congr fun i hi =>
    hcut₂.frame i (hcut₂.inorder ▸ hapart i hi)
  obtain ⟨h₃, root', kept, hcombine, hkept, hkin, hframe₃⟩ :=
    combinePieces_spec (ht.of_sublist hl₂ hlsub) hcut₂.right (ht.nodup.sublist (hlrsub.map _))
      fun x hx => (hl x hx).trans hle
  -- the middle piece is not touched when the outer ones are put together
  have hdel₃ : Rep h₃ d del := hcut₂.left.congr fun i hi =>
    hframe₃ i fun hi' => hapart i hi' (by simp [hi])
  obtain ⟨hdeleted, hothers⟩ := filter_overlaps hl
    (fun x hx => ⟨hdel x hx, hm x (hcut₂.inorder ▸ List.mem_append_left _ hx)⟩) hr
  refine ⟨⟨h₃, root', d⟩, kept, del, ?_, ht.of_sublist hkept (hkin ▸ hlrsub),
    ht.of_sublist hdel₃ hdsub, ?_, ?_, ?_⟩
  · simp [intervalTreeDelete, hroot, hnode, hless, hgreater, hcombine]
  · rw [hin, hdeleted]
  · rw [hin, hothers, hkin]
  · intro i hi
    have hil : i ∉ addrs l.inorder := fun hil => hi ((hlsub.map _).subset hil)
    have him : i ∉ addrs m.inorder := fun him => hi ((hmsub.map _).subset him)
    rw [hframe₃ i hil, hcut₂.frame i him, hcut₁.frame i hi]

/-- Three intervals, and a node behind them that touches the first and the last and meets
the second. -/
def borderHeap : IntervalHeap :=
  [⟨some 1, some 2, ⟨6, 8, none⟩⟩, ⟨none, none, ⟨0, 4, none⟩⟩, ⟨none, none, ⟨9, 12, none⟩⟩,
    ⟨none, none, ⟨4, 9, none⟩⟩]

theorem intervalTreeDelete_spec_border :
    ∃ res kept deleted, intervalTreeDelete borderHeap (some 0) (some 3) = some res ∧
      TreeInv res.heap res.root kept ∧ TreeInv res.heap res.delTree deleted ∧
      deleted.inorder = [(0, ⟨6, 8, none⟩)] ∧
      kept.inorder = [(1, ⟨0, 4, none⟩), (2, ⟨9, 12, none⟩)] := by
  have ht : TreeInv borderHeap (some 0)
      (.node (0, ⟨6, 8, none⟩) (.node (1, ⟨0, 4, none⟩) .nil .nil)
        (.node (2, ⟨9, 12, none⟩) .nil .nil)) := by
    refine ⟨⟨rfl, _, rfl, rfl, ⟨rfl, _, rfl, rfl, rfl, rfl⟩, ⟨rfl, _, rfl, rfl, rfl, rfl⟩⟩, ?_,
      ?_, ?_⟩
    · decide
    · simp
    · simp
  have hnode : read borderHeap (some 3) = some ⟨none, none, ⟨4, 9, none⟩⟩ := rfl
  obtain ⟨res, kept, deleted, hres, hkept, hdeleted, hdel, hothers, -⟩ :=
    intervalTreeDelete_spec ht hnode (by decide)
  exact ⟨res, kept, deleted, hres, hkept, hdeleted, hdel.trans (by decide),
    hothers.trans (by decide)⟩

end Delete

end DroidPerf
