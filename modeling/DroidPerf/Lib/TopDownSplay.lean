import Mathlib.Data.Tree.Basic
import Mathlib.Data.List.Pairwise
import Mathlib.Data.List.Basic

/-!
# Top-down splaying of binary trees

A **top-down splay** walks from the root towards a searched position and cuts the tree in three
on the way: the nodes known to lie left of the position, the tree still to be searched, and the
nodes known to lie right of it. The two outer pieces are kept as stacks of frames whose
innermost frame still has a hole; `plugLeft`/`plugRight` fill the hole.

The searched position is given by two tests on node values: `lo a` says that the position lies
before `a`, `hi a` that it lies after `a`. The only fact about the order that splaying needs is
`Separated`: of two nodes in order, the first is passed (`hi`) or the second lies beyond
(`lo`).

`SplayRound` lists the ways a round can go, one constructor each. A round keeps all values in
their order (`values_eq`), makes the middle tree smaller (`numNodes_lt`), and keeps the
invariant `CutInv`: what was cut off on a side lies on that side. `Splays.spec` is what follows
for the whole splay: the same values, with a root that splits them at the position.
-/

namespace BinaryTree

universe u

variable {α : Type u}

/-- The values of a tree from left to right. -/
def inorder : BinaryTree α → List α
  | .nil => []
  | .node a l r => l.inorder ++ a :: r.inorder

@[simp] theorem inorder_nil : (nil : BinaryTree α).inorder = [] := rfl

@[simp] theorem inorder_node (a : α) (l r : BinaryTree α) :
    (node a l r).inorder = l.inorder ++ a :: r.inorder := rfl

/-- A tree without values is empty. -/
theorem eq_nil_of_inorder {t : BinaryTree α} (h : ∀ x ∈ t.inorder, False) : t = .nil := by
  cases t with
  | nil => rfl
  | node a l r => exact (h a (by simp)).elim

/-- A tree has as many values as nodes. -/
theorem length_inorder (t : BinaryTree α) : t.inorder.length = t.numNodes := by
  induction t with
  | nil => rfl
  | node a l r ihl ihr =>
      rw [inorder_node, List.length_append, List.length_cons, ihl, ihr, numNodes]
      omega

/-! ### Frames

The innermost frame is the head of the list, since it is the one that is hung on to; from left
to right the frames of a left accumulator are read from the outermost one in. -/

/-- A node with one of its subtrees, waiting for the other one. -/
abbrev Frame (α : Type u) := α × BinaryTree α

/-- Fill the hole of a left accumulator; the head of the list is the innermost
frame. -/
def plugLeft : List (Frame α) → BinaryTree α → BinaryTree α
  | [], t => t
  | (a, l) :: L, t => plugLeft L (.node a l t)

/-- Fill the hole of a right accumulator. -/
def plugRight : List (Frame α) → BinaryTree α → BinaryTree α
  | [], t => t
  | (a, r) :: R, t => plugRight R (.node a t r)

/-- The values held by a left accumulator, from left to right. -/
def leftValues : List (Frame α) → List α
  | [] => []
  | (a, l) :: L => leftValues L ++ (l.inorder ++ [a])

/-- The values held by a right accumulator, from left to right. -/
def rightValues : List (Frame α) → List α
  | [] => []
  | (a, r) :: R => (a :: r.inorder) ++ rightValues R

@[simp] theorem leftValues_nil : leftValues ([] : List (Frame α)) = [] := rfl

@[simp] theorem leftValues_cons (l : BinaryTree α) (a : α) (L : List (Frame α)) :
    leftValues ((a, l) :: L) = leftValues L ++ (l.inorder ++ [a]) := rfl

@[simp] theorem rightValues_nil : rightValues ([] : List (Frame α)) = [] := rfl

@[simp] theorem rightValues_cons (a : α) (r : BinaryTree α) (R : List (Frame α)) :
    rightValues ((a, r) :: R) = (a :: r.inorder) ++ rightValues R := rfl

/-- The two accumulators hold the same values when they hold the same frames. -/
theorem leftValues_perm (F : List (Frame α)) : (leftValues F).Perm (rightValues F) := by
  induction F with
  | nil => exact List.Perm.refl _
  | cons f F ih =>
      obtain ⟨a, t⟩ := f
      rw [leftValues_cons, rightValues_cons]
      exact List.perm_append_comm.trans ((List.perm_append_singleton a t.inorder).append ih)

/-- A left accumulator stands in front of the tree that fills its hole. -/
theorem inorder_plugLeft (L : List (Frame α)) (t : BinaryTree α) :
    (plugLeft L t).inorder = leftValues L ++ t.inorder := by
  induction L generalizing t with
  | nil => simp [plugLeft]
  | cons f L ih =>
      obtain ⟨a, l⟩ := f
      rw [plugLeft, ih]
      simp

/-- A right accumulator stands behind it. -/
theorem inorder_plugRight (R : List (Frame α)) (t : BinaryTree α) :
    (plugRight R t).inorder = t.inorder ++ rightValues R := by
  induction R generalizing t with
  | nil => simp [plugRight]
  | cons f R ih =>
      obtain ⟨a, r⟩ := f
      rw [plugRight, ih]
      simp

/-! ### Splaying

The rounds of the loop on trees. Which test is made first, and when a rotated child ends the
round, is as in the loop of the algorithm. -/

/-- Where a splay stands: the left accumulator, the tree still to be searched,
split at its root, and the right accumulator. -/
structure Cut (α : Type u) where
  left : List (Frame α)
  value : α
  lsub : BinaryTree α
  rsub : BinaryTree α
  right : List (Frame α)

namespace Cut

/-- The tree still to be searched. -/
def focus (c : Cut α) : BinaryTree α := .node c.value c.lsub c.rsub

/-- Put the three pieces together under the current root. -/
def assemble (c : Cut α) : BinaryTree α :=
  .node c.value (plugLeft c.left c.lsub) (plugRight c.right c.rsub)

/-- All values of the three pieces, from left to right. -/
def values (c : Cut α) : List α := leftValues c.left ++ c.focus.inorder ++ rightValues c.right

/-- Putting the pieces together keeps the order. -/
theorem inorder_assemble (c : Cut α) : c.assemble.inorder = c.values := by
  simp [assemble, values, focus, inorder_plugLeft, inorder_plugRight]

end Cut

/-- One round of the top-down loop. `.inl` stops at the given cut, `.inr` goes on
from it. A zig-zig first rotates the child above the root; when the rotated child
has no further child on that side, the round stops with the rotation done. -/
inductive SplayRound (lo hi : α → Bool) : Cut α → Cut α ⊕ Cut α → Prop
  | loStop {L : List (Frame α)} {a : α} {r : BinaryTree α} {R : List (Frame α)} :
      lo a = true → SplayRound lo hi ⟨L, a, .nil, r, R⟩ (.inl ⟨L, a, .nil, r, R⟩)
  | loRotateStop {L : List (Frame α)} {a b : α} {br r : BinaryTree α} {R : List (Frame α)} :
      lo a = true → lo b = true →
      SplayRound lo hi ⟨L, a, .node b .nil br, r, R⟩ (.inl ⟨L, b, .nil, .node a br r, R⟩)
  | loRotateLink {L : List (Frame α)} {a b c : α} {cl cr br r : BinaryTree α}
      {R : List (Frame α)} : lo a = true → lo b = true →
      SplayRound lo hi ⟨L, a, .node b (.node c cl cr) br, r, R⟩
        (.inr ⟨L, c, cl, cr, (b, .node a br r) :: R⟩)
  | loLink {L : List (Frame α)} {a b : α} {bl br r : BinaryTree α} {R : List (Frame α)} :
      lo a = true → lo b = false →
      SplayRound lo hi ⟨L, a, .node b bl br, r, R⟩ (.inr ⟨L, b, bl, br, (a, r) :: R⟩)
  | hiStop {L : List (Frame α)} {a : α} {l : BinaryTree α} {R : List (Frame α)} :
      lo a = false → hi a = true →
      SplayRound lo hi ⟨L, a, l, .nil, R⟩ (.inl ⟨L, a, l, .nil, R⟩)
  | hiRotateStop {L : List (Frame α)} {a b : α} {bl l : BinaryTree α} {R : List (Frame α)} :
      lo a = false → hi a = true → hi b = true →
      SplayRound lo hi ⟨L, a, l, .node b bl .nil, R⟩ (.inl ⟨L, b, .node a l bl, .nil, R⟩)
  | hiRotateLink {L : List (Frame α)} {a b c : α} {cl cr bl l : BinaryTree α}
      {R : List (Frame α)} : lo a = false → hi a = true → hi b = true →
      SplayRound lo hi ⟨L, a, l, .node b bl (.node c cl cr), R⟩
        (.inr ⟨(b, .node a l bl) :: L, c, cl, cr, R⟩)
  | hiLink {L : List (Frame α)} {a b : α} {bl br l : BinaryTree α} {R : List (Frame α)} :
      lo a = false → hi a = true → hi b = false →
      SplayRound lo hi ⟨L, a, l, .node b bl br, R⟩ (.inr ⟨(a, l) :: L, b, bl, br, R⟩)
  | found {L : List (Frame α)} {a : α} {l r : BinaryTree α} {R : List (Frame α)} :
      lo a = false → hi a = false →
      SplayRound lo hi ⟨L, a, l, r, R⟩ (.inl ⟨L, a, l, r, R⟩)

/-- Rounds up to the one that stops. Every splay is finite, since a round that goes on has less
to search. -/
inductive Splays (lo hi : α → Bool) : Cut α → Cut α → Prop
  | stop {c c' : Cut α} : SplayRound lo hi c (.inl c') → Splays lo hi c c'
  | go {c c₁ c' : Cut α} : SplayRound lo hi c (.inr c₁) → Splays lo hi c₁ c' → Splays lo hi c c'

/-! ### What a splay achieves

The tests need not come from a linear order on the values: all that is used is that along the
values they change once, from passed to beyond, with at most a node that is neither between. -/

/-- What the order of the values must give for a splay to be meaningful. -/
def Separated (lo hi : α → Bool) (xs : List α) : Prop :=
  xs.Pairwise (fun x y => hi x = true ∨ lo y = true)

namespace Separated

variable {lo hi : α → Bool} {xs ys : List α} {a : α}

/-- Everything after a value that is not passed lies beyond. -/
theorem beyond (h : Separated lo hi (xs ++ a :: ys)) (ha : hi a = false) :
    ∀ y ∈ ys, lo y = true := by
  intro y hy
  have hpw : ∀ y ∈ ys, hi a = true ∨ lo y = true :=
    (List.pairwise_cons.mp (List.pairwise_append.mp h).2.1).1
  rcases hpw y hy with hy' | hy'
  · rw [ha] at hy'; exact absurd hy' (by decide)
  · exact hy'

/-- Everything before a value that does not lie beyond is passed. -/
theorem passed (h : Separated lo hi (xs ++ a :: ys)) (ha : lo a = false) :
    ∀ x ∈ xs, hi x = true := by
  intro x hx
  rcases (List.pairwise_append.mp h).2.2 x hx a (List.mem_cons_self ..) with hx' | hx'
  · exact hx'
  · rw [ha] at hx'; exact absurd hx' (by decide)

end Separated

/-- The loop invariant: everything cut off on the left was passed, everything
cut off on the right lies beyond. No value is both. -/
structure CutInv (lo hi : α → Bool) (c : Cut α) : Prop where
  exclusive : ∀ x ∈ c.values, lo x = true → hi x = false
  separated : Separated lo hi c.values
  passed : ∀ x ∈ leftValues c.left, hi x = true
  beyond : ∀ x ∈ rightValues c.right, lo x = true

section Rounds

variable {lo hi : α → Bool} {c c' : Cut α}

/-- A round neither loses nor reorders a value. -/
theorem SplayRound.values_eq {o : Cut α ⊕ Cut α} (h : SplayRound lo hi c o) :
    Sum.elim Cut.values Cut.values o = c.values := by
  cases h <;> simp [Cut.values, Cut.focus]

/-- A round that goes on has a smaller tree left to search. -/
theorem SplayRound.numNodes_lt (h : SplayRound lo hi c (.inr c')) :
    c'.focus.numNodes < c.focus.numNodes := by
  cases h <;> simp only [Cut.focus, numNodes] <;> omega

/-- A frame whose node lies beyond takes its whole right accumulator along. -/
theorem Separated.beyond_frame {f : Frame α} {R : List (Frame α)} {xs : List α}
    (h : Separated lo hi (xs ++ rightValues (f :: R))) (hf : lo f.1 = true)
    (hex : lo f.1 = true → hi f.1 = false) : ∀ x ∈ rightValues (f :: R), lo x = true := by
  intro x hx
  rcases List.mem_cons.mp hx with rfl | hx
  · exact hf
  · exact Separated.beyond h (hex hf) x hx

/-- A frame whose node was passed takes its whole left accumulator along. -/
theorem Separated.passed_frame {f : Frame α} {L : List (Frame α)} {ys : List α}
    (h : Separated lo hi (leftValues (f :: L) ++ ys)) (hf : hi f.1 = true)
    (hex : lo f.1 = true → hi f.1 = false) : ∀ x ∈ leftValues (f :: L), hi x = true := by
  obtain ⟨a, l⟩ := f
  have hlo : lo a = false := by
    by_contra hla
    rw [hex (by simpa using hla)] at hf
    exact absurd hf (by decide)
  have h' : Separated lo hi ((leftValues L ++ l.inorder) ++ a :: ys) := by simpa using h
  intro x hx
  rw [leftValues_cons, ← List.append_assoc] at hx
  rcases List.mem_append.mp hx with hx | hx
  · exact Separated.passed h' hlo x hx
  · rw [List.mem_singleton.mp hx]; exact hf

/-- A round that goes on keeps the invariant: the node it links, and the subtree
that goes with it, lie on the side they are linked to. -/
theorem CutInv.round (hc : CutInv lo hi c) (h : SplayRound lo hi c (.inr c')) :
    CutInv lo hi c' := by
  have hv : c'.values = c.values := h.values_eq
  have hex : ∀ x ∈ c'.values, lo x = true → hi x = false := hv ▸ hc.exclusive
  have hsep : Separated lo hi c'.values := hv ▸ hc.separated
  have hleft : Separated lo hi (leftValues c'.left ++ (c'.focus.inorder ++ rightValues c'.right)) := by
    simpa only [Cut.values, List.append_assoc] using hsep
  refine ⟨hex, hsep, ?_, ?_⟩
  · -- on the left, only a round that goes right has linked something: a node that was passed
    cases h with
    | loRotateLink | loLink => exact hc.passed
    | hiRotateLink _ _ hb =>
        exact Separated.passed_frame hleft hb (hex _ (by simp [Cut.values]))
    | hiLink _ ha _ =>
        exact Separated.passed_frame hleft ha (hex _ (by simp [Cut.values]))
  · -- and on the right only one that goes left
    cases h with
    | hiRotateLink | hiLink => exact hc.beyond
    | loRotateLink _ hb =>
        exact Separated.beyond_frame hsep hb (hex _ (by simp [Cut.values]))
    | loLink ha _ =>
        exact Separated.beyond_frame hsep ha (hex _ (by simp [Cut.values]))

/-- When a round stops, the whole left side of the new tree was passed and its
whole right side lies beyond. -/
theorem CutInv.settled (hc : CutInv lo hi c) (h : SplayRound lo hi c (.inl c')) :
    (∀ x ∈ leftValues c'.left ++ c'.lsub.inorder, hi x = true) ∧
      (∀ x ∈ c'.rsub.inorder ++ rightValues c'.right, lo x = true) := by
  have hv : c'.values = c.values := h.values_eq
  have hval : c'.values = (leftValues c'.left ++ c'.lsub.inorder) ++
      c'.value :: (c'.rsub.inorder ++ rightValues c'.right) := by
    simp [Cut.values, Cut.focus]
  have hsep := hval ▸ hv ▸ hc.separated
  have hex : lo c'.value = true → hi c'.value = false :=
    hc.exclusive c'.value (by rw [← hv, hval]; simp)
  cases h with
  | loStop ha => exact ⟨by simpa using hc.passed, Separated.beyond hsep (hex ha)⟩
  | loRotateStop _ hb => exact ⟨by simpa using hc.passed, Separated.beyond hsep (hex hb)⟩
  | hiStop ha _ => exact ⟨Separated.passed hsep ha, by simpa using hc.beyond⟩
  | hiRotateStop _ _ hb =>
      refine ⟨Separated.passed hsep ?_, by simpa using hc.beyond⟩
      by_contra hlb
      rw [hex (by simpa using hlb)] at hb
      exact absurd hb (by decide)
  | found ha ha' => exact ⟨Separated.passed hsep ha, Separated.beyond hsep ha'⟩

/-- **Splay specification.** Splaying keeps the in-order values and puts a root
whose left side was passed and whose right side lies beyond. -/
theorem Splays.spec (h : Splays lo hi c c') (hc : CutInv lo hi c) :
    c'.assemble.inorder = c.values ∧
      (∀ x ∈ (plugLeft c'.left c'.lsub).inorder, hi x = true) ∧
      (∀ x ∈ (plugRight c'.right c'.rsub).inorder, lo x = true) := by
  induction h with
  | stop hr =>
      have hs := hc.settled hr
      refine ⟨?_, ?_, ?_⟩
      · rw [Cut.inorder_assemble]; exact hr.values_eq
      · rw [inorder_plugLeft]; exact hs.1
      · rw [inorder_plugRight]; exact hs.2
  | @go c c₁ _ hr _ ih =>
      have hv : c₁.values = c.values := hr.values_eq
      rw [← hv]
      exact ih (hc.round hr)

end Rounds

end BinaryTree
