import Mathlib.Data.List.Nodup
import Mathlib.Data.List.Infix

/-!
# Finite sets as lists

A finite set as the list of its elements, without repetition by construction. The order of the
list has no meaning; code that runs over a set runs over some permutation of it (`Traversal`).

The structure stands for the hash sets of a program. A result that should not depend on the
iteration order of such a set is stated for every `Traversal`.
-/

/-- A finite set. -/
structure ListSet (α : Type) where
  elems : List α
  nodup : elems.Nodup

namespace ListSet

variable {α : Type}

/-- The set without elements. -/
def empty : ListSet α := ⟨[], .nil⟩

/-- An order in which a set is run over: each element once. -/
structure Traversal (α : Type) where
  list : ListSet α → List α
  perm : ∀ s, (list s).Perm s.elems

/-- The elements in the order of the list. -/
def Traversal.inOrder : Traversal α := ⟨elems, fun _ => .refl _⟩

variable [DecidableEq α]

/-- Insertion; nothing happens when the element is there. -/
def insert (s : ListSet α) (a : α) : ListSet α :=
  if h : a ∈ s.elems then s else ⟨s.elems ++ [a], by
    rw [List.nodup_append]
    refine ⟨s.nodup, List.nodup_singleton a, fun x hx y hy heq => ?_⟩
    rw [List.mem_singleton.mp hy] at heq
    exact h (heq ▸ hx)⟩

theorem insert_of_mem {s : ListSet α} {a : α} (h : a ∈ s.elems) : s.insert a = s := dif_pos h

/-- A new element comes last. -/
theorem elems_insert_of_notMem {s : ListSet α} {a : α} (h : a ∉ s.elems) :
    (s.insert a).elems = s.elems ++ [a] := by
  unfold insert
  rw [dif_neg h]

/-- Membership after an insertion. -/
@[simp] theorem mem_insert {s : ListSet α} {a x : α} :
    x ∈ (s.insert a).elems ↔ x ∈ s.elems ∨ x = a := by
  by_cases h : a ∈ s.elems
  · rw [insert_of_mem h]
    constructor
    · exact .inl
    · intro hcases
      rcases hcases with hx | rfl
      · exact hx
      · exact h
  · rw [elems_insert_of_notMem h, List.mem_append, List.mem_singleton]

/-- Removal; nothing happens when the element is not there. -/
def erase (s : ListSet α) (a : α) : ListSet α := ⟨s.elems.erase a, s.nodup.erase a⟩

/-- Membership after a removal. -/
@[simp] theorem mem_erase {s : ListSet α} {a x : α} :
    x ∈ (s.erase a).elems ↔ x ∈ s.elems ∧ x ≠ a := by
  unfold erase
  rw [s.nodup.mem_erase_iff]
  exact and_comm

end ListSet
