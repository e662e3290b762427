import DroidPerf.Lib.TopDownSplay
import Mathlib.Data.List.Nodup
import Mathlib.Data.List.Perm.Basic

/-!
# Binary trees in a heap of linked cells

A heap is a list of cells; a cell has two links and a payload, and a link is `none` (null) or
the address of a cell. Reading or writing through a null or dangling link fails, so an
operation that returns `some` made no invalid access.

`Rep h p t` says that the cells reachable from `p` form the tree `t`, whose nodes carry their
address and payload. `Seg` is the same for a tree with a hole: a chain of frames along one
link, from an anchor cell to the cell whose link is the hole. The anchor stands outside the
tree; its link on the chain's side is the root once the hole is filled.

What a pointer program does to a heap is compared with what happens to the tree, write by
write. A write outside of a piece leaves it alone (`Rep.set`, `Seg.set`), so what has to be
known of the pieces is that their cells are different; `Pieces` collects a tree between two
chains with this fact. Its four rules are the moves of a top-down algorithm: `link` hangs the
root into a hole, `rotate` turns it with a child, `fill` closes one chain, and `assemble`
closes both and puts the whole together. Each is stated for one side and holds for the other by
`Pieces.swap`.
-/

namespace LinkedTree

open BinaryTree

universe u

/-- A link: null or the address of a cell. -/
abbrev Link := Option Nat

/-- A cell of the heap. -/
structure Cell (β : Type u) where
  prev : Link
  next : Link
  val : β
  deriving DecidableEq, Repr

/-- One of the two links of a cell. -/
inductive Side
  | prev
  | next
  deriving DecidableEq, Repr

namespace Side

/-- The other link. -/
def other : Side → Side
  | .prev => .next
  | .next => .prev

@[simp] theorem other_other (s : Side) : s.other.other = s := by cases s <;> rfl

end Side

/-- A heap: the address of a cell is its index. -/
abbrev Heap (β : Type u) := List (Cell β)

/-- A tree node: where it is and what it carries. -/
abbrev Node (β : Type u) := Nat × β

variable {β : Type u}

namespace Cell

/-- Read a link of a cell. -/
def link : Side → Cell β → Link
  | .prev, c => c.prev
  | .next, c => c.next

/-- Overwrite a link of a cell. -/
def setLink : Side → Link → Cell β → Cell β
  | .prev, q, c => { c with prev := q }
  | .next, q, c => { c with next := q }

@[simp] theorem link_setLink (s : Side) (q : Link) (c : Cell β) :
    (c.setLink s q).link s = q := by
  cases s <;> rfl

@[simp] theorem link_other_setLink (s : Side) (q : Link) (c : Cell β) :
    (c.setLink s q).link s.other = c.link s.other := by
  cases s <;> rfl

@[simp] theorem link_setLink_other (s : Side) (q : Link) (c : Cell β) :
    (c.setLink s.other q).link s = c.link s := by
  cases s <;> rfl

@[simp] theorem val_setLink (s : Side) (q : Link) (c : Cell β) :
    (c.setLink s q).val = c.val := by
  cases s <;> rfl

end Cell

/-- Dereference a link. -/
def read (h : Heap β) (p : Link) : Option (Cell β) := p.bind (h[·]?)

/-- Overwrite a link of the cell that `p` points to. -/
def write (h : Heap β) (s : Side) (p q : Link) : Option (Heap β) :=
  p.bind fun a => h[a]?.map fun c => h.set a (c.setLink s q)

/-- A link to a cell can be read. -/
theorem read_some {h : Heap β} {a : Nat} {c : Cell β} (hc : h[a]? = some c) :
    read h (some a) = some c := hc

/-- A link to a cell can be written through. -/
theorem write_some {h : Heap β} {a : Nat} {c : Cell β} (hc : h[a]? = some c) (s : Side)
    (q : Link) : write h s (some a) q = some (h.set a (c.setLink s q)) := by
  simp [write, hc]

/-- The cell that was written. -/
theorem get_set_self {h : Heap β} {a : Nat} {c c' : Cell β} (hc : h[a]? = some c) :
    (h.set a c')[a]? = some c' := by
  have hlt : a < h.length := (List.getElem?_eq_some_iff.mp hc).1
  simp [hlt]

/-- Other cells keep what they hold. -/
theorem get_set_ne {h : Heap β} {a b : Nat} {c : Cell β} (hab : a ≠ b) :
    (h.set a c)[b]? = h[b]? := List.getElem?_set_ne hab

/-! ### Trees

`Rep` is defined by recursion on the tree, so a heap has to show every cell of it; cells
outside of the tree do not matter. -/

/-- The tree rooted at `p`. The null link is the empty tree, and a node is a cell with its
payload and two links to its subtrees. -/
def Rep (h : Heap β) : Link → BinaryTree (Node β) → Prop
  | p, .nil => p = none
  | p, .node n l r => p = some n.1 ∧ ∃ c, h[n.1]? = some c ∧ c.val = n.2 ∧
      Rep h c.prev l ∧ Rep h c.next r

/-- The addresses of a list of nodes. -/
def addrs (ns : List (Node β)) : List Nat := ns.map Prod.fst

@[simp] theorem addrs_nil : addrs ([] : List (Node β)) = [] := rfl

@[simp] theorem addrs_cons (n : Node β) (ns : List (Node β)) :
    addrs (n :: ns) = n.1 :: addrs ns := rfl

@[simp] theorem addrs_append (ns ms : List (Node β)) :
    addrs (ns ++ ms) = addrs ns ++ addrs ms := List.map_append ..

namespace Rep

variable {h : Heap β} {p : Link} {t : BinaryTree (Node β)}

@[simp] theorem nil_iff : Rep h p .nil ↔ p = none := Iff.rfl

/-- A null link roots nothing. -/
theorem eq_nil (hr : Rep h none t) : t = .nil := by
  cases t with
  | nil => rfl
  | node n l r => exact nomatch hr.1

/-- Writing a cell outside the tree leaves the tree alone. -/
theorem set {b : Nat} {c : Cell β} (hr : Rep h p t) (hb : b ∉ addrs t.inorder) :
    Rep (h.set b c) p t := by
  induction t generalizing p with
  | nil => exact hr
  | node n l r ihl ihr =>
      simp only [inorder_node, addrs_append, addrs_cons, List.mem_append, List.mem_cons,
        not_or] at hb
      obtain ⟨rfl, cn, hcn, hval, hl, hr'⟩ := hr
      exact ⟨rfl, cn, by rw [get_set_ne hb.2.1, hcn], hval, ihl hl hb.1, ihr hr' hb.2.2⟩

/-- A tree survives in every heap that agrees on its cells. -/
theorem congr {h' : Heap β} (hr : Rep h p t) (hh : ∀ a ∈ addrs t.inorder, h'[a]? = h[a]?) :
    Rep h' p t := by
  induction t generalizing p with
  | nil => exact hr
  | node n l r ihl ihr =>
      simp only [inorder_node, addrs_append, addrs_cons, List.mem_append, List.mem_cons] at hh
      obtain ⟨rfl, cn, hcn, hval, hl, hr'⟩ := hr
      exact ⟨rfl, cn, by rw [hh n.1 (.inr (.inl rfl)), hcn], hval,
        ihl hl fun a ha => hh a (.inl ha), ihr hr' fun a ha => hh a (.inr (.inr ha))⟩

/-- Hanging another tree below the root, on the right. -/
theorem write_next {n : Node β} {l r r' : BinaryTree (Node β)} {q : Link}
    (hr : Rep h (some n.1) (.node n l r)) (hq : Rep h q r')
    (hn : n.1 ∉ addrs l.inorder ∧ n.1 ∉ addrs r'.inorder) :
    ∃ h', write h .next (some n.1) q = some h' ∧ Rep h' (some n.1) (.node n l r') ∧
      ∀ i ≠ n.1, h'[i]? = h[i]? := by
  obtain ⟨-, c, hc, hval, hl, -⟩ := hr
  refine ⟨h.set n.1 (c.setLink .next q), write_some hc .next q, ?_, ?_⟩
  · exact ⟨rfl, c.setLink .next q, get_set_self hc, hval, hl.set hn.1, hq.set hn.2⟩
  · exact fun i hi => get_set_ne (Ne.symm hi)

/-- Hanging another tree below the root, on the left. -/
theorem write_prev {n : Node β} {l l' r : BinaryTree (Node β)} {q : Link}
    (hr : Rep h (some n.1) (.node n l r)) (hq : Rep h q l')
    (hn : n.1 ∉ addrs l'.inorder ∧ n.1 ∉ addrs r.inorder) :
    ∃ h', write h .prev (some n.1) q = some h' ∧ Rep h' (some n.1) (.node n l' r) ∧
      ∀ i ≠ n.1, h'[i]? = h[i]? := by
  obtain ⟨-, c, hc, hval, -, hr'⟩ := hr
  refine ⟨h.set n.1 (c.setLink .prev q), write_some hc .prev q, ?_, ?_⟩
  · exact ⟨rfl, c.setLink .prev q, get_set_self hc, hval, hq.set hn.1, hr'.set hn.2⟩
  · exact fun i hi => get_set_ne (Ne.symm hi)

/-- Growing the heap at its end leaves the tree alone. -/
theorem append {h' : Heap β} (hr : Rep h p t) : Rep (h ++ h') p t := by
  induction t generalizing p with
  | nil => exact hr
  | node n l r ihl ihr =>
      obtain ⟨rfl, cn, hcn, hval, hl, hr'⟩ := hr
      have hlt : n.1 < h.length := (List.getElem?_eq_some_iff.mp hcn).1
      exact ⟨rfl, cn, by rw [List.getElem?_append_left hlt, hcn], hval, ihl hl, ihr hr'⟩

/-- Dropping cells behind the tree leaves the tree alone. -/
theorem take {d : Nat} (hr : Rep h p t) (hd : ∀ a ∈ addrs t.inorder, a < d) :
    Rep (h.take d) p t := by
  induction t generalizing p with
  | nil => exact hr
  | node n l r ihl ihr =>
      simp only [inorder_node, addrs_append, addrs_cons, List.mem_append, List.mem_cons] at hd
      obtain ⟨hp, c, hc, hval, hl, hr'⟩ := hr
      refine ⟨hp, c, ?_, hval, ihl hl fun a ha => hd a (.inl ha),
        ihr hr' fun a ha => hd a (.inr (.inr ha))⟩
      rw [List.getElem?_take_of_lt (hd n.1 (.inr (.inl rfl))), hc]

/-- The nodes of a tree are cells of the heap. -/
theorem lt_length (hr : Rep h p t) : ∀ a ∈ addrs t.inorder, a < h.length := by
  induction t generalizing p with
  | nil => intro a ha; simp at ha
  | node n l r ihl ihr =>
      obtain ⟨-, cn, hcn, -, hl, hr'⟩ := hr
      intro a ha
      simp only [inorder_node, addrs_append, addrs_cons, List.mem_append, List.mem_cons] at ha
      rcases ha with ha | rfl | ha
      · exact ihl hl a ha
      · exact (List.getElem?_eq_some_iff.mp hcn).1
      · exact ihr hr' a ha

end Rep

/-! ### Trees with a hole

A chain is what a loop has cut off so far: a node with one subtree at each step, and the next
link to be written at its end. -/

/-- The chain of frames from the anchor `d` along side `s` to the cell `m` whose
link `s` is the hole; the head of the list is the frame at `m`. A frame's own
subtree hangs on the other side. -/
def Seg (h : Heap β) (d : Nat) (s : Side) : Nat → List (Frame (Node β)) → Prop
  | m, [] => m = d
  | m, (n, t) :: F => m = n.1 ∧ (∃ c, h[n.1]? = some c ∧ c.val = n.2 ∧ Rep h (c.link s.other) t) ∧
      ∃ b cb, Seg h d s b F ∧ h[b]? = some cb ∧ cb.link s = some n.1

/-- Fill the hole of a chain along side `s`. -/
def plug : Side → List (Frame (Node β)) → BinaryTree (Node β) → BinaryTree (Node β)
  | .next => plugLeft
  | .prev => plugRight

namespace Seg

variable {h : Heap β} {d m : Nat} {s : Side} {F : List (Frame (Node β))}

/-- The cell with the hole is the anchor or one of the frames. -/
theorem mem (hs : Seg h d s m F) : m = d ∨ m ∈ addrs (rightValues F) := by
  cases F with
  | nil => exact .inl hs
  | cons f F =>
      obtain ⟨n, t⟩ := f
      obtain ⟨rfl, -⟩ := hs
      exact .inr (by simp)

/-- Writing a cell outside the chain leaves the chain alone. -/
theorem set {b : Nat} {c : Cell β} (hs : Seg h d s m F) (hd : b ≠ d)
    (hb : b ∉ addrs (rightValues F)) : Seg (h.set b c) d s m F := by
  induction F generalizing m with
  | nil => exact hs
  | cons f F ih =>
      obtain ⟨n, t⟩ := f
      simp only [rightValues_cons, addrs_append, addrs_cons, List.mem_append, List.mem_cons,
        not_or] at hb
      obtain ⟨rfl, ⟨cn, hcn, hval, ht⟩, a, ca, ha, hca, hlink⟩ := hs
      refine ⟨rfl, ⟨cn, by rw [get_set_ne hb.1.1, hcn], hval, ht.set hb.1.2⟩, a, ca,
        ih ha hb.2, ?_, hlink⟩
      rw [get_set_ne, hca]
      intro heq
      subst heq
      rcases ha.mem with rfl | hmem
      · exact hd rfl
      · exact hb.2 hmem

/-- Hang the next frame into the hole of a chain. -/
theorem cons {n : Node β} {t : BinaryTree (Node β)} {c cm : Cell β} (hs : Seg h d s m F)
    (hc : h[n.1]? = some c) (hval : c.val = n.2) (ht : Rep h (c.link s.other) t)
    (hm : h[m]? = some cm) (hlink : cm.link s = some n.1) : Seg h d s n.1 ((n, t) :: F) :=
  ⟨rfl, ⟨c, hc, hval, ht⟩, m, cm, hs, hm, hlink⟩

/-- Writing the hole itself leaves the chain alone. -/
theorem set_hole {cm : Cell β} {q : Link} (hs : Seg h d s m F) (hm : h[m]? = some cm)
    (hnd : (d :: addrs (rightValues F)).Nodup) :
    Seg (h.set m (cm.setLink s q)) d s m F := by
  cases F with
  | nil => exact hs
  | cons f F =>
      obtain ⟨n, t⟩ := f
      obtain ⟨rfl, ⟨cn, hcn, hval, ht⟩, a, ca, ha, hca, hlink⟩ := hs
      obtain rfl : cm = cn := Option.some.inj (hm.symm.trans hcn)
      simp only [rightValues_cons, addrs_append, addrs_cons, List.cons_append, List.nodup_cons,
        List.mem_cons, List.mem_append, not_or] at hnd
      obtain ⟨⟨hdn, -, -⟩, ⟨hnt, hnF⟩, -⟩ := hnd
      have hna : n.1 ≠ a := by
        intro heq
        subst heq
        rcases ha.mem with hna | hna
        · exact hdn hna.symm
        · exact hnF hna
      refine ⟨rfl, ⟨_, get_set_self hm, by rw [Cell.val_setLink, hval], ?_⟩, a, ca,
        ha.set (Ne.symm hdn) hnF, by rw [get_set_ne hna, hca], hlink⟩
      rw [Cell.link_other_setLink]
      exact ht.set hnt

/-- Writing the anchor's link on the other side leaves the chain alone. -/
theorem set_anchor {cd : Cell β} {q : Link} (hs : Seg h d s m F) (hd : h[d]? = some cd)
    (hnd : d ∉ addrs (rightValues F)) : Seg (h.set d (cd.setLink s.other q)) d s m F := by
  induction F generalizing m with
  | nil => exact hs
  | cons f F ih =>
      obtain ⟨n, t⟩ := f
      simp only [rightValues_cons, addrs_append, addrs_cons, List.mem_append, List.mem_cons,
        not_or] at hnd
      obtain ⟨rfl, ⟨cn, hcn, hval, ht⟩, a, ca, ha, hca, hlink⟩ := hs
      refine ⟨rfl, ⟨cn, by rw [get_set_ne hnd.1.1, hcn], hval, ht.set hnd.1.2⟩, a, ?_⟩
      by_cases had : d = a
      · subst had
        obtain rfl : cd = ca := Option.some.inj (hd.symm.trans hca)
        exact ⟨_, ih ha hnd.2, get_set_self hd, by rw [Cell.link_setLink_other, hlink]⟩
      · exact ⟨ca, ih ha hnd.2, by rw [get_set_ne had, hca], hlink⟩

/-- Once a tree hangs in the hole, the anchor's link is the root of the filled
tree. -/
theorem close {t : BinaryTree (Node β)} {cm : Cell β} (hs : Seg h d s m F)
    (hm : h[m]? = some cm) (ht : Rep h (cm.link s) t) :
    ∃ cd, h[d]? = some cd ∧ Rep h (cd.link s) (plug s F t) := by
  induction F generalizing m t cm with
  | nil =>
      obtain rfl : m = d := hs
      exact ⟨cm, hm, by cases s <;> exact ht⟩
  | cons f F ih =>
      -- the innermost frame is closed first, and its node becomes the tree for the next hole
      obtain ⟨n, u⟩ := f
      obtain ⟨rfl, ⟨cn, hcn, hval, hu⟩, a, ca, ha, hca, hlink⟩ := hs
      obtain rfl : cm = cn := Option.some.inj (hm.symm.trans hcn)
      cases s with
      | next => exact ih (t := .node n u t) ha hca ⟨hlink, cm, hcn, hval, hu, ht⟩
      | prev => exact ih (t := .node n t u) ha hca ⟨hlink, cm, hcn, hval, ht, hu⟩

end Seg

/-! ### A tree between two chains

Both chains begin at the anchor, one along each of its links, and the tree that is still to be
searched is in neither. -/

/-- The node `n` with the subtree `x` on side `s` and `y` on the other side. -/
def join : Side → Node β → BinaryTree (Node β) → BinaryTree (Node β) → BinaryTree (Node β)
  | .prev, n, x, y => .node n x y
  | .next, n, x, y => .node n y x

/-- A tree with a node at its root, whichever side is which. -/
theorem rep_join {h : Heap β} {p : Link} {s : Side} {n : Node β} {x y : BinaryTree (Node β)} :
    Rep h p (join s n x y) ↔ p = some n.1 ∧ ∃ c, h[n.1]? = some c ∧ c.val = n.2 ∧
      Rep h (c.link s) x ∧ Rep h (c.link s.other) y := by
  cases s with
  | prev => exact Iff.rfl
  | next =>
      constructor
      · intro hrep
        obtain ⟨hp, c, hc, hval, hy, hx⟩ := hrep
        exact ⟨hp, c, hc, hval, hx, hy⟩
      · intro hrep
        obtain ⟨hp, c, hc, hval, hx, hy⟩ := hrep
        exact ⟨hp, c, hc, hval, hy, hx⟩

/-- An address is in one of the three parts as often as in the whole. -/
theorem count_join (s : Side) (n : Node β) (x y : BinaryTree (Node β)) (a : Nat) :
    (addrs (join s n x y).inorder).count a =
      [n.1].count a + (addrs x.inorder).count a + (addrs y.inorder).count a := by
  cases s <;> simp [join, List.count_cons] <;> omega

/-- Filling a hole neither loses nor adds an address. -/
theorem mem_addrs_plug {s : Side} {F : List (Frame (Node β))} {t : BinaryTree (Node β)} {a : Nat} :
    a ∈ addrs (plug s F t).inorder ↔ a ∈ addrs t.inorder ∨ a ∈ addrs (rightValues F) := by
  cases s with
  | prev => simp [plug, inorder_plugRight]
  | next =>
      have hperm : (addrs (leftValues F)).Perm (addrs (rightValues F)) := (leftValues_perm F).map _
      simp [plug, inorder_plugLeft, hperm.mem_iff, or_comm]

/-- A tree `t` at `p` between the chains `F` (along side `s`, hole in cell `m`) and
`G` (along the other side, hole in cell `k`), all in different cells. -/
structure Pieces (h : Heap β) (d : Nat) (s : Side) (p : Link) (t : BinaryTree (Node β))
    (m : Nat) (F : List (Frame (Node β))) (k : Nat) (G : List (Frame (Node β))) : Prop where
  root : Rep h p t
  near : Seg h d s m F
  far : Seg h d s.other k G
  nodup : (d :: (addrs t.inorder ++ addrs (rightValues F) ++ addrs (rightValues G))).Nodup
  anchor : d < h.length

namespace Pieces

variable {h : Heap β} {d m k : Nat} {s : Side} {p : Link} {t : BinaryTree (Node β)}
  {F G : List (Frame (Node β))}

/-- The two chains play the same role. -/
theorem swap (hp : Pieces h d s p t m F k G) : Pieces h d s.other p t k G m F := by
  refine ⟨hp.root, hp.far, by rw [Side.other_other]; exact hp.near, ?_, hp.anchor⟩
  refine (List.Perm.nodup_iff (List.perm_iff_count.mpr fun a => ?_)).mp hp.nodup
  simp only [List.count_cons, List.count_append]
  omega

/-- The cell with the hole exists and lies outside the tree and the other chain's
frames. -/
theorem hole (hp : Pieces h d s p t m F k G) :
    ∃ cm, h[m]? = some cm ∧ m ∉ addrs t.inorder ∧ m ∉ addrs (rightValues G) := by
  obtain ⟨-, hF, -, hnd, hd⟩ := hp
  have hne : ∀ a ∈ addrs (rightValues F), a ∉ addrs t.inorder ∧ a ∉ addrs (rightValues G) := by
    intro a ha
    have hnd' := (List.nodup_cons.mp hnd).2
    exact ⟨fun hat => List.disjoint_of_nodup_append (List.nodup_append.mp hnd').1 hat ha,
      fun haG => List.disjoint_of_nodup_append hnd' (List.mem_append_right _ ha) haG⟩
  have hdm := (List.nodup_cons.mp hnd).1
  simp only [List.mem_append, not_or] at hdm
  cases F with
  | nil =>
      obtain rfl : m = d := hF
      exact ⟨_, List.getElem?_eq_getElem hd, hdm.1.1, hdm.2⟩
  | cons f F =>
      obtain ⟨n, u⟩ := f
      obtain ⟨rfl, ⟨c, hc, -⟩, -⟩ := hF
      exact ⟨c, hc, hne n.1 (by simp)⟩

/-- The frames of the near chain are in different cells. -/
theorem nodup_near (hp : Pieces h d s p t m F k G) : (d :: addrs (rightValues F)).Nodup := by
  refine List.Nodup.sublist ?_ hp.nodup
  exact ((List.sublist_append_right _ _).trans (List.sublist_append_left _ _)).cons_cons d

/-- The chain on the other side does not notice a write to the hole. -/
theorem far_set_hole {cm : Cell β} {q : Link} (hp : Pieces h d s p t m F k G)
    (hm : h[m]? = some cm) : Seg (h.set m (cm.setLink s q)) d s.other k G := by
  obtain ⟨-, -, -, hmG⟩ := hp.hole
  by_cases hmd : m = d
  · subst hmd
    have hs := hp.far.set_anchor (q := q) hm hmG
    rwa [Side.other_other] at hs
  · exact hp.far.set hmd hmG

/-- **Link.** Hanging the root into the hole makes it the innermost frame; its subtree on side
`s` is what remains. One write is enough. -/
theorem link {n : Node β} {x y : BinaryTree (Node β)}
    (hp : Pieces h d s p (join s n x y) m F k G) :
    ∃ c cm, h[n.1]? = some c ∧ h[m]? = some cm ∧
      Pieces (h.set m (cm.setLink s (some n.1))) d s (c.link s) x n.1 ((n, y) :: F) k G := by
  obtain ⟨cm, hm, hmt, -⟩ := hp.hole
  obtain ⟨-, c, hc, hval, hx, hy⟩ := rep_join.mp hp.root
  have hmt' : m ≠ n.1 ∧ m ∉ addrs x.inorder ∧ m ∉ addrs y.inorder := by
    refine ⟨?_, ?_, ?_⟩ <;> intro hmem <;> apply hmt <;> cases s <;> simp [join, hmem]
  refine ⟨c, cm, hc, hm, hx.set hmt'.2.1, ?_, hp.far_set_hole hm, ?_, by simpa using hp.anchor⟩
  · exact (hp.near.set_hole hm hp.nodup_near).cons (by rw [get_set_ne hmt'.1, hc]) hval
      (hy.set hmt'.2.2) (get_set_self hm) (by simp)
  · refine (List.Perm.nodup_iff (List.perm_iff_count.mpr fun a => ?_)).mp hp.nodup
    simp only [List.count_cons, List.count_append, count_join, rightValues_cons, addrs_append,
      addrs_cons, List.count_nil]
    omega

/-- The cells of a rotation are two, and neither is in another piece. -/
theorem rotate_distinct {a b : Node β} {x y z : BinaryTree (Node β)}
    (hp : Pieces h d s p (join s a (join s b x y) z) m F k G) :
    a.1 ≠ b.1 ∧ ∀ i ∈ [a.1, b.1], i ≠ d ∧ i ∉ addrs x.inorder ∧ i ∉ addrs y.inorder ∧
      i ∉ addrs z.inorder ∧ i ∉ addrs (rightValues F) ∧ i ∉ addrs (rightValues G) := by
  -- every address occurs at most once among all pieces
  have hcount : ∀ i, [d].count i + ([a.1].count i + ([b.1].count i + (addrs x.inorder).count i +
      (addrs y.inorder).count i) + (addrs z.inorder).count i) + (addrs (rightValues F)).count i +
      (addrs (rightValues G)).count i ≤ 1 := by
    intro i
    have hi := List.nodup_iff_count_le_one.mp hp.nodup i
    simp only [List.count_cons, List.count_append, count_join, List.count_nil] at hi ⊢
    omega
  refine ⟨fun hab => ?_, fun i hi => ?_⟩
  · have hci := hcount b.1
    simp only [hab, List.count_singleton_self] at hci
    omega
  · have hci := hcount i
    have hpos : 1 ≤ [a.1].count i + [b.1].count i := by
      rcases List.mem_cons.mp hi with rfl | hi
      · simp
      · simp [List.mem_singleton.mp hi]
    simp only [← List.count_eq_zero]
    refine ⟨?_, ?_⟩
    · intro heq
      subst heq
      simp only [List.count_singleton_self] at hci
      omega
    · omega

/-- **Rotate.** The child on side `s` moves above the root. Two links are written: the root
gets the child's subtree, and the child gets the root. -/
theorem rotate {a b : Node β} {x y z : BinaryTree (Node β)}
    (hp : Pieces h d s p (join s a (join s b x y) z) m F k G) :
    ∃ ca cb, h[a.1]? = some ca ∧ h[b.1]? = some cb ∧ ca.link s = some b.1 ∧ a.1 ≠ b.1 ∧
      Pieces ((h.set a.1 (ca.setLink s (cb.link s.other))).set b.1
        (cb.setLink s.other (some a.1))) d s (some b.1) (join s b x (join s a y z)) m F k G := by
  obtain ⟨-, ca, hca, hvala, hb, hz⟩ := rep_join.mp hp.root
  obtain ⟨hlink, cb, hcb, hvalb, hx, hy⟩ := rep_join.mp hb
  obtain ⟨hab, hout⟩ := hp.rotate_distinct
  obtain ⟨had, hax, hay, haz, haF, haG⟩ := hout a.1 (by simp)
  obtain ⟨hbd, hbx, hby, hbz, hbF, hbG⟩ := hout b.1 (by simp)
  refine ⟨ca, cb, hca, hcb, hlink, hab, ?_, ?_, ?_, ?_, by simpa using hp.anchor⟩
  · refine rep_join.mpr ⟨rfl, _, get_set_self (by rw [get_set_ne hab, hcb]), ?_, ?_, ?_⟩
    · simpa using hvalb
    · rw [Cell.link_setLink_other]
      exact (hx.set hax).set hbx
    · refine rep_join.mpr ⟨by simp, _, by rw [get_set_ne hab.symm, get_set_self hca], ?_, ?_, ?_⟩
      · simpa using hvala
      · rw [Cell.link_setLink]
        exact (hy.set hay).set hby
      · rw [Cell.link_other_setLink]
        exact (hz.set haz).set hbz
  · exact (hp.near.set had haF).set hbd hbF
  · exact (hp.far.set had haG).set hbd hbG
  · refine (List.Perm.nodup_iff (List.perm_iff_count.mpr fun i => ?_)).mp hp.nodup
    simp only [List.count_cons, List.count_append, count_join, List.count_nil]
    omega

/-- **Fill.** Once the root's subtree on the other side hangs in the hole, the
anchor's link is the root of the filled chain; the root's own cell is untouched. -/
theorem fill {n : Node β} {x y : BinaryTree (Node β)}
    (hp : Pieces h d s p (join s n x y) m F k G) :
    ∃ c cm cd, h[n.1]? = some c ∧ c.val = n.2 ∧ h[m]? = some cm ∧
      (h.set m (cm.setLink s (c.link s.other)))[n.1]? = some c ∧
      (h.set m (cm.setLink s (c.link s.other)))[d]? = some cd ∧
      Rep (h.set m (cm.setLink s (c.link s.other))) (cd.link s) (plug s F y) ∧
      Rep (h.set m (cm.setLink s (c.link s.other))) (c.link s) x := by
  obtain ⟨cm, hm, hmt, -⟩ := hp.hole
  obtain ⟨-, c, hc, hval, hx, hy⟩ := rep_join.mp hp.root
  have hmt' : m ≠ n.1 ∧ m ∉ addrs x.inorder ∧ m ∉ addrs y.inorder := by
    refine ⟨?_, ?_, ?_⟩ <;> intro hmem <;> apply hmt <;> cases s <;> simp [join, hmem]
  have hy' : Rep (h.set m (cm.setLink s (c.link s.other)))
      ((cm.setLink s (c.link s.other)).link s) y := by
    rw [Cell.link_setLink]
    exact hy.set hmt'.2.2
  obtain ⟨cd, hcd, hcdr⟩ := (hp.near.set_hole hm hp.nodup_near).close (get_set_self hm) hy'
  exact ⟨c, cm, cd, hc, hval, hm, by rw [get_set_ne hmt'.1, hc], hcd, hcdr, hx.set hmt'.2.1⟩

section Assemble

variable {n : Node β} {l r : BinaryTree (Node β)} {L R : List (Frame (Node β))}

/-- The pieces stay what they are when the hole of the near chain is filled. -/
theorem set_near {c cm : Cell β} (hp : Pieces h d .next p (.node n l r) m L k R)
    (hm : h[m]? = some cm) :
    Pieces (h.set m (cm.setLink .next c.prev)) d .next (some n.1) (.node n l r) m L k R := by
  obtain ⟨cm', hm', hmt, -⟩ := hp.hole
  obtain ⟨rfl, -⟩ := hp.root
  exact ⟨hp.root.set hmt, hp.near.set_hole hm hp.nodup_near, hp.far_set_hole hm, hp.nodup,
    by simpa using hp.anchor⟩

/-- The root's cell is in neither of the two filled chains. -/
theorem root_notMem_plug (hp : Pieces h d .next p (.node n l r) m L k R) :
    n.1 ≠ d ∧ n.1 ∉ addrs (plugLeft L l).inorder ∧ n.1 ∉ addrs (plugRight R r).inorder := by
  have hn := List.nodup_iff_count_le_one.mp hp.nodup n.1
  simp only [inorder_node, addrs_append, addrs_cons, List.count_cons, List.count_append,
    beq_self_eq_true, if_true] at hn
  refine ⟨?_, fun hmem => ?_, fun hmem => ?_⟩
  · intro hnd
    simp only [hnd, beq_self_eq_true, if_true] at hn
    omega
  · rcases (mem_addrs_plug (s := .next)).mp hmem with hmem | hmem <;>
      have := List.count_pos_iff.mpr hmem <;> omega
  · rcases (mem_addrs_plug (s := .prev)).mp hmem with hmem | hmem <;>
      have := List.count_pos_iff.mpr hmem <;> omega

/-- **Assemble.** Filling both holes with the root's two subtrees, and then
hanging the two filled chains below the root, gives the whole tree. -/
theorem assemble (hp : Pieces h d .next p (.node n l r) m L k R) :
    ∃ c cm ck cd, p = some n.1 ∧ n.1 ≠ d ∧ h[n.1]? = some c ∧ h[m]? = some cm ∧
      (h.set m (cm.setLink .next c.prev))[n.1]? = some c ∧
      (h.set m (cm.setLink .next c.prev))[k]? = some ck ∧
      ((h.set m (cm.setLink .next c.prev)).set k (ck.setLink .prev c.next))[n.1]? = some c ∧
      ((h.set m (cm.setLink .next c.prev)).set k (ck.setLink .prev c.next))[d]? = some cd ∧
      Rep (((h.set m (cm.setLink .next c.prev)).set k (ck.setLink .prev c.next)).set n.1
        ⟨cd.next, cd.prev, c.val⟩) (some n.1) (.node n (plugLeft L l) (plugRight R r)) := by
  obtain ⟨c, cm, cd₁, hc, hval, hm, hc₁, hcd₁, hrep₁, -⟩ :=
    fill (s := .next) (x := r) (y := l) hp
  -- the second fill starts from the heap after the first one
  have hp₁ := hp.set_near (c := c) hm
  obtain ⟨c', ck, cd, hc', -, hk, hc₂, hcd, hrep₂, -⟩ :=
    fill (s := .prev) (x := l) (y := r) hp₁.swap
  obtain rfl : c = c' := Option.some.inj (hc₁.symm.trans hc')
  obtain ⟨ck', hk', hkt, hkL⟩ := hp₁.swap.hole
  -- the first filled chain survives the second fill
  have hrep₁' : Rep ((h.set m (cm.setLink .next c.prev)).set k (ck.setLink .prev c.next))
      cd.next (plugLeft L l) := by
    have hcdnext : cd.next = cd₁.next := by
      by_cases hkd : k = d
      · subst hkd
        obtain rfl : ck = cd₁ := Option.some.inj (hk.symm.trans hcd₁)
        have heq : (ck.setLink .prev c.next) = cd :=
          Option.some.inj ((get_set_self hcd₁).symm.trans hcd)
        rw [← heq]
        rfl
      · have heq : cd₁ = cd := Option.some.inj (hcd₁.symm.trans ((get_set_ne hkd).symm.trans hcd))
        rw [heq]
    rw [hcdnext]
    refine hrep₁.set fun hmem => ?_
    rcases (mem_addrs_plug (s := .next)).mp hmem with hmem | hmem
    · exact hkt (by simp [hmem])
    · exact hkL hmem
  obtain ⟨hnd, hnL, hnR⟩ := hp.root_notMem_plug
  refine ⟨c, cm, ck, cd, hp.root.1, hnd, hc, hm, hc₁, hk, hc₂, hcd, rfl, _, get_set_self hc₂, hval,
    ?_, ?_⟩
  · exact hrep₁'.set hnL
  · exact Rep.set hrep₂ hnR

end Assemble

end Pieces

end LinkedTree
