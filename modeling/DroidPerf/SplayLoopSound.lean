import DroidPerf.Splay

/-!
# DroidPerf.SplayLoopSound

The loop of `interval_tree_splay` on the heap simulates the rounds of
`DroidPerf.Lib.TopDownSplay`.

The simulation relation `LoopRep` reads the three trees of the loop off the heap: the tree at
`root` between the chain hanging from `dummy.next` (the left tree, with its hole in
`ltree_max`) and the chain hanging from `dummy.prev` (the right tree, with its hole in
`rtree_min`).

Each group of statements has its lemma: the two ways to link are `Pieces.link` on either side,
the two rotations are `Pieces.rotate`, and the assembly is `Pieces.assemble`. With these a pass
through the body is one of the rounds of `SplayRound` (`splayRound_sim`), and the loop ends
because the abstract rounds make the tree smaller. The set `S` of cells that may be written,
the nodes of the tree and the dummy, is carried along for the frame.
-/

namespace DroidPerf

open BinaryTree LinkedTree

/-- `addr < START(n)`. -/
def startsAfter (addr : Nat) (n : Node Interval) : Bool := decide (addr < n.2.start)

/-- `addr >= END(n)`. -/
def endsBefore (addr : Nat) (n : Node Interval) : Bool := decide (n.2.stop ≤ addr)

/-! ### The loop

The lemmas go through the body from its statements to whole rounds. A step of the loop reads
and writes cells of the focus and the two holes, all of which `LoopRep` knows to exist and
differ. -/

/-- The loop variables `v` hold the cut `c`; only the cells of `S` differ from the heap `h₀` at
the start of the call, and the heap has not grown. -/
structure LoopRep (h₀ : IntervalHeap) (d : Nat) (S : List Nat) (v : SplayVars)
    (c : Cut (Node Interval)) : Prop where
  pieces : ∃ m k, v.ltreeMax = some m ∧ v.rtreeMin = some k ∧
    Pieces v.heap d .next v.root c.focus m c.left k c.right
  cover : ∀ a ∈ d :: addrs c.values, a ∈ S
  frame : ∀ a ∉ S, v.heap[a]? = h₀[a]?
  length_eq : v.heap.length = h₀.length

section Loop

variable {h₀ : IntervalHeap} {d : Nat} {S : List Nat} {v : SplayVars}
  {L R : List (Frame (Node Interval))} {a b : Node Interval}
  {l r bl br : BinaryTree (Node Interval)}

/-- A write to a covered cell keeps the frame. -/
theorem frame_set {h : IntervalHeap} {i : Nat} {c : IntervalTreeNode} (hi : i ∈ S)
    (hf : ∀ a ∉ S, h[a]? = h₀[a]?) : ∀ a ∉ S, (h.set i c)[a]? = h₀[a]? := by
  intro a ha
  rw [get_set_ne (by rintro rfl; exact ha hi)]
  exact hf a ha

/-- The cells with the holes are `dummy` or frames, so they are covered. -/
theorem holes_covered {h : IntervalHeap} {p : Link} {m k : Nat} {c : Cut (Node Interval)}
    (hp : Pieces h d .next p c.focus m c.left k c.right)
    (hcov : ∀ a ∈ d :: addrs c.values, a ∈ S) : m ∈ S ∧ k ∈ S := by
  have hleft : (addrs (leftValues c.left)).Perm (addrs (rightValues c.left)) :=
    (leftValues_perm c.left).map _
  refine ⟨hcov m ?_, hcov k ?_⟩
  · rcases hp.near.mem with rfl | hm
    · exact List.mem_cons_self ..
    · simp [Cut.values, hleft.mem_iff.mpr hm]
  · rcases hp.far.mem with rfl | hk
    · exact List.mem_cons_self ..
    · simp [Cut.values, hk]

/-- "Link new root into right tree." -/
theorem linkRightTree_sim (hv : LoopRep h₀ d S v ⟨L, a, .node b bl br, r, R⟩) :
    ∃ v', linkRightTree v (some b.1) = some v' ∧
      LoopRep h₀ d S v' ⟨L, b, bl, br, (a, r) :: R⟩ := by
  obtain ⟨⟨m, k, hm, hk, hp⟩, hcov, hframe, hlen⟩ := hv
  obtain ⟨c, ck, hc, hck, hp'⟩ := Pieces.link (s := .prev) (x := .node b bl br) (y := r) hp.swap
  obtain ⟨hroot, -⟩ := hp.root
  obtain ⟨-, hkS⟩ := holes_covered hp hcov
  refine ⟨_, by rw [linkRightTree, hk, hroot, write_some hck]; rfl, ?_, ?_, ?_, ?_⟩
  · obtain ⟨hy, -⟩ := hp'.root
    refine ⟨m, a.1, hm, rfl, ?_⟩
    rw [hy] at hp'
    exact hp'.swap
  · simpa [Cut.values, Cut.focus] using hcov
  · exact frame_set hkS hframe
  · simpa using hlen

/-- "Link new root into left tree." -/
theorem linkLeftTree_sim (hv : LoopRep h₀ d S v ⟨L, a, l, .node b bl br, R⟩) :
    ∃ v', linkLeftTree v (some b.1) = some v' ∧
      LoopRep h₀ d S v' ⟨(a, l) :: L, b, bl, br, R⟩ := by
  obtain ⟨⟨m, k, hm, hk, hp⟩, hcov, hframe, hlen⟩ := hv
  obtain ⟨c, cm, hc, hcm, hp'⟩ := Pieces.link (s := .next) (x := .node b bl br) (y := l) hp
  obtain ⟨hroot, -⟩ := hp.root
  obtain ⟨hmS, -⟩ := holes_covered hp hcov
  refine ⟨_, by rw [linkLeftTree, hm, hroot, write_some hcm]; rfl, ?_, ?_, ?_, ?_⟩
  · obtain ⟨hy, -⟩ := hp'.root
    refine ⟨a.1, k, rfl, hk, ?_⟩
    rw [hy] at hp'
    exact hp'
  · simpa [Cut.values, Cut.focus] using hcov
  · exact frame_set hmS hframe
  · simpa using hlen

/-- The rotated pair belongs to the focus, so it is covered. -/
theorem rotate_cover {i j : Node Interval} {c : Cut (Node Interval)}
    (hcov : ∀ a ∈ d :: addrs c.values, a ∈ S) (hi : i ∈ c.focus.inorder)
    (hj : j ∈ c.focus.inorder) : i.1 ∈ S ∧ j.1 ∈ S := by
  have hmem : ∀ n ∈ c.focus.inorder, n.1 ∈ S := by
    intro n hn
    refine hcov n.1 (List.mem_cons_of_mem _ (List.mem_map_of_mem ?_))
    simp [Cut.values, hn]
  exact ⟨hmem i hi, hmem j hj⟩

/-- "rotate right" -/
theorem rotateRight_sim (hv : LoopRep h₀ d S v ⟨L, a, .node b bl br, r, R⟩) :
    ∃ cb h₁ h₂, read v.heap (some b.1) = some cb ∧ cb.val = b.2 ∧
      write v.heap .prev v.root cb.next = some h₁ ∧ write h₁ .next (some b.1) v.root = some h₂ ∧
      LoopRep h₀ d S { v with heap := h₂, root := some b.1 } ⟨L, b, bl, .node a br r, R⟩ := by
  obtain ⟨⟨m, k, hm, hk, hp⟩, hcov, hframe, hlen⟩ := hv
  obtain ⟨ca, cb, hca, hcb, hlink, hab, hp'⟩ :=
    Pieces.rotate (s := .prev) (x := bl) (y := br) (z := r) hp.swap
  obtain ⟨hroot, ca', hca', -, ⟨-, cb', hcb', hval, -⟩, -⟩ := hp.root
  obtain rfl : cb = cb' := Option.some.inj (hcb.symm.trans hcb')
  have hS := rotate_cover hcov (i := a) (j := b) (by simp [Cut.focus]) (by simp [Cut.focus])
  refine ⟨cb, _, _, read_some hcb, hval, by rw [hroot]; exact write_some hca _ _,
    by rw [hroot]; exact write_some (by rw [get_set_ne hab, hcb]) _ _, ?_, ?_, ?_, ?_⟩
  · exact ⟨m, k, hm, hk, hp'.swap⟩
  · simpa [Cut.values, Cut.focus] using hcov
  · exact frame_set hS.2 (frame_set hS.1 hframe)
  · simpa using hlen

/-- "rotate left" -/
theorem rotateLeft_sim (hv : LoopRep h₀ d S v ⟨L, a, l, .node b bl br, R⟩) :
    ∃ cb h₁ h₂, read v.heap (some b.1) = some cb ∧ cb.val = b.2 ∧
      write v.heap .next v.root cb.prev = some h₁ ∧ write h₁ .prev (some b.1) v.root = some h₂ ∧
      LoopRep h₀ d S { v with heap := h₂, root := some b.1 } ⟨L, b, .node a l bl, br, R⟩ := by
  obtain ⟨⟨m, k, hm, hk, hp⟩, hcov, hframe, hlen⟩ := hv
  obtain ⟨ca, cb, hca, hcb, hlink, hab, hp'⟩ :=
    Pieces.rotate (s := .next) (x := br) (y := bl) (z := l) hp
  obtain ⟨hroot, ca', hca', -, -, ⟨-, cb', hcb', hval, -⟩⟩ := hp.root
  obtain rfl : cb = cb' := Option.some.inj (hcb.symm.trans hcb')
  have hS := rotate_cover hcov (i := a) (j := b) (by simp [Cut.focus]) (by simp [Cut.focus])
  refine ⟨cb, _, _, read_some hcb, hval, by rw [hroot]; exact write_some hca _ _,
    by rw [hroot]; exact write_some (by rw [get_set_ne hab, hcb]) _ _, ?_, ?_, ?_, ?_⟩
  · exact ⟨m, k, hm, hk, hp'⟩
  · simpa [Cut.values, Cut.focus] using hcov
  · exact frame_set hS.2 (frame_set hS.1 hframe)
  · simpa using hlen

/-- The cell of the root and the links to its children. -/
theorem LoopRep.read_root (hv : LoopRep h₀ d S v ⟨L, a, l, r, R⟩) :
    ∃ c, read v.heap v.root = some c ∧ c.val = a.2 ∧ Rep v.heap c.prev l ∧ Rep v.heap c.next r := by
  obtain ⟨⟨m, k, -, -, hp⟩, -⟩ := hv
  obtain ⟨hroot, c, hc, hval, hl, hr⟩ := hp.root
  exact ⟨c, by rw [hroot]; exact read_some hc, hval, hl, hr⟩

/-- One pass through the loop body on `v` is one round of the abstract splay on `c`. -/
def RoundSim (h₀ : IntervalHeap) (d : Nat) (S : List Nat) (addr : Nat) (v : SplayVars)
    (c : Cut (Node Interval)) : Prop :=
  (∃ v' c', splayRound addr v = some (.inl v') ∧
    SplayRound (startsAfter addr) (endsBefore addr) c (.inl c') ∧ LoopRep h₀ d S v' c') ∨
  (∃ v' c', splayRound addr v = some (.inr v') ∧
    SplayRound (startsAfter addr) (endsBefore addr) c (.inr c') ∧ LoopRep h₀ d S v' c')

/-- The branch for an address below the root's interval. The left child decides: without one
the round stops; if the address is below the child as well, the two are rotated first. -/
theorem splayRound_low {addr : Nat} (hlo : addr < a.2.start)
    (hv : LoopRep h₀ d S v ⟨L, a, l, r, R⟩) : RoundSim h₀ d S addr v ⟨L, a, l, r, R⟩ := by
  obtain ⟨ca, hca, hvala, hl, -⟩ := hv.read_root
  have hlo' : startsAfter addr a = true := by simpa [startsAfter] using hlo
  cases l with
  | nil =>
      refine .inl ⟨v, _, ?_, .loStop hlo', hv⟩
      simp [splayRound, hca, hvala, hlo, Rep.nil_iff.mp hl]
  | node b bl br =>
      obtain ⟨hprev, -⟩ := hl
      obtain ⟨cb, h₁, h₂, hcb, hvalb, hw₁, hw₂, hv'⟩ := rotateRight_sim hv
      by_cases hlob : addr < b.2.start
      · -- zig-zig: the child comes to the root, and the round goes on if it has a child of its
        -- own
        have hlob' : startsAfter addr b = true := by simpa [startsAfter] using hlob
        obtain ⟨cb', hcb', -, hbl, -⟩ := hv'.read_root
        cases bl with
        | nil =>
            refine .inl ⟨_, _, ?_, .loRotateStop hlo' hlob', hv'⟩
            simp [splayRound, hca, hvala, hlo, hprev, hcb, hvalb, hlob, hw₁, hw₂, hcb',
              Rep.nil_iff.mp hbl]
        | node c cl cr =>
            obtain ⟨v'', hlink, hv''⟩ := linkRightTree_sim hv'
            refine .inr ⟨v'', _, ?_, .loRotateLink hlo' hlob', hv''⟩
            simp [splayRound, hca, hvala, hlo, hprev, hcb, hvalb, hlob, hw₁, hw₂, hcb',
              hbl.1, hlink]
      · -- zig: the root alone goes to the right tree
        have hlob' : startsAfter addr b = false := by simpa [startsAfter] using hlob
        obtain ⟨v'', hlink, hv''⟩ := linkRightTree_sim hv
        refine .inr ⟨v'', _, ?_, .loLink hlo' hlob', hv''⟩
        simp [splayRound, hca, hvala, hlo, hprev, hcb, hvalb, hlob, hlink]

/-- The branch for an address above the root's interval, the mirror image. -/
theorem splayRound_high {addr : Nat} (hlo : ¬ addr < a.2.start) (hhi : a.2.stop ≤ addr)
    (hv : LoopRep h₀ d S v ⟨L, a, l, r, R⟩) : RoundSim h₀ d S addr v ⟨L, a, l, r, R⟩ := by
  obtain ⟨ca, hca, hvala, -, hr⟩ := hv.read_root
  have hlo' : startsAfter addr a = false := by simpa [startsAfter] using hlo
  have hhi' : endsBefore addr a = true := by simpa [endsBefore] using hhi
  cases r with
  | nil =>
      refine .inl ⟨v, _, ?_, .hiStop hlo' hhi', hv⟩
      simp [splayRound, hca, hvala, hlo, hhi, Rep.nil_iff.mp hr]
  | node b bl br =>
      obtain ⟨hnext, -⟩ := hr
      obtain ⟨cb, h₁, h₂, hcb, hvalb, hw₁, hw₂, hv'⟩ := rotateLeft_sim hv
      by_cases hhib : b.2.stop ≤ addr
      · have hhib' : endsBefore addr b = true := by simpa [endsBefore] using hhib
        obtain ⟨cb', hcb', -, -, hbr⟩ := hv'.read_root
        cases br with
        | nil =>
            refine .inl ⟨_, _, ?_, .hiRotateStop hlo' hhi' hhib', hv'⟩
            simp [splayRound, hca, hvala, hlo, hhi, hnext, hcb, hvalb, hhib, hw₁, hw₂, hcb',
              Rep.nil_iff.mp hbr]
        | node c cl cr =>
            obtain ⟨v'', hlink, hv''⟩ := linkLeftTree_sim hv'
            refine .inr ⟨v'', _, ?_, .hiRotateLink hlo' hhi' hhib', hv''⟩
            simp [splayRound, hca, hvala, hlo, hhi, hnext, hcb, hvalb, hhib, hw₁, hw₂, hcb',
              hbr.1, hlink]
      · have hhib' : endsBefore addr b = false := by simpa [endsBefore] using hhib
        obtain ⟨v'', hlink, hv''⟩ := linkLeftTree_sim hv
        refine .inr ⟨v'', _, ?_, .hiLink hlo' hhi' hhib', hv''⟩
        simp [splayRound, hca, hvala, hlo, hhi, hnext, hcb, hvalb, hhib, hlink]

/-- **One round of the loop** is a round of the abstract splay. The two branches are those
above; an address inside the root's interval stops the loop. -/
theorem splayRound_sim (addr : Nat) {c : Cut (Node Interval)} (hv : LoopRep h₀ d S v c) :
    RoundSim h₀ d S addr v c := by
  obtain ⟨L, a, l, r, R⟩ := c
  by_cases hlo : addr < a.2.start
  · exact splayRound_low hlo hv
  · by_cases hhi : a.2.stop ≤ addr
    · exact splayRound_high hlo hhi hv
    · -- the address is in the root's interval
      obtain ⟨ca, hca, hvala, -, -⟩ := hv.read_root
      have hlo' : startsAfter addr a = false := by simpa [startsAfter] using hlo
      have hhi' : endsBefore addr a = false := by simpa [endsBefore] using hhi
      refine .inl ⟨v, _, ?_, .found hlo' hhi', hv⟩
      simp [splayRound, hca, hvala, hlo, hhi]

/-- **The loop.** With at least as many rounds as the focus has nodes, it ends, and it ends
where the abstract splay ends. -/
theorem splayLoop_sim (addr : Nat) {fuel : Nat} {c : Cut (Node Interval)}
    (hfuel : c.focus.numNodes ≤ fuel) (hv : LoopRep h₀ d S v c) :
    ∃ v' c', splayLoop addr fuel v = some v' ∧
      Splays (startsAfter addr) (endsBefore addr) c c' ∧ LoopRep h₀ d S v' c' := by
  induction fuel generalizing v c with
  | zero => simp [Cut.focus] at hfuel
  | succ fuel ih =>
      rcases splayRound_sim addr hv with ⟨v', c', he, hr, hv'⟩ | ⟨v', c', he, hr, hv'⟩
      · exact ⟨v', c', by simp [splayLoop, he], .stop hr, hv'⟩
      · have hlt := hr.numNodes_lt
        obtain ⟨v'', c'', he', hs, hv''⟩ := ih (by omega) hv'
        exact ⟨v'', c'', by simp [splayLoop, he, he'], .go hr hs, hv''⟩

/-- "Assemble the new root." Both holes are filled and the two chains become the subtrees of
the root; the dummy is not part of the result. -/
theorem assembleRoot_sim {c : Cut (Node Interval)} (hv : LoopRep h₀ d S v c) :
    ∃ h', assembleRoot d v = some h' ∧ v.root = some c.value.1 ∧ Rep h' v.root c.assemble ∧
      (∀ a ∉ S, h'[a]? = h₀[a]?) ∧ h'.length = h₀.length := by
  obtain ⟨L, a, l, r, R⟩ := c
  obtain ⟨⟨m, k, hm, hk, hp⟩, hcov, hframe, hlen⟩ := hv
  obtain ⟨ca, cm, ck, cd, hroot, had, hca, hcm, hca₁, hck, hca₂, hcd, hrep⟩ := Pieces.assemble hp
  obtain ⟨hmS, hkS⟩ := holes_covered hp hcov
  have haS : a.1 ∈ S := hcov a.1 (by simp [Cut.values, Cut.focus])
  refine ⟨((v.heap.set m (cm.setLink .next ca.prev)).set k (ck.setLink .prev ca.next)).set a.1
    ⟨cd.next, cd.prev, ca.val⟩, ?_, hroot, ?_, ?_, ?_⟩
  · simp only [assembleRoot, hroot, hm, hk, read_some hca, write_some hcm, read_some hca₁,
      write_some hck, read_some hcd, write_some hca₂, Option.bind_eq_bind, Option.bind_some]
    rw [read_some (by rw [get_set_ne had, hcd])]
    simp only [Option.bind_some]
    rw [write_some (get_set_self hca₂), List.set_set]
    rfl
  · rw [hroot]
    exact hrep
  · exact frame_set haS (frame_set hkS (frame_set hmS hframe))
  · simpa using hlen

end Loop

end DroidPerf
