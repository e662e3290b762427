import Mathlib.Tactic.Linarith

/-!
# DroidPerf.Machine

Arithmetic of the C integer types and the ways in which the agent's code can fail to return.

Counters, addresses and sizes are natural numbers; where the source relies on the width of a
type, the wrap-around is written out by the operations below.

Code that may fail returns in `Except Fault`. A sequence of statements is taken apart by
`bind_eq_ok`: from a result that was returned, one obtains what each statement returned.
-/

namespace DroidPerf

/-! ### Integers

Only the operations that the source relies on have a definition; where no wrap-around can
happen, natural numbers are used as they are. -/

/-- Addition of 64-bit unsigned numbers. -/
def add64 (a b : Nat) : Nat := (a + b) % 2 ^ 64

/-- Subtraction of 64-bit unsigned numbers. -/
def sub64 (a b : Nat) : Nat := (a + (2 ^ 64 - b % 2 ^ 64)) % 2 ^ 64

/-- Conversion of an unsigned number to `int`, as the compilers do it: the low 32 bits, read in
two's complement. A `jmethodID` that is printed with `%d` goes through it. -/
def toInt32 (a : Nat) : Int :=
  if a % 2 ^ 32 < 2 ^ 31 then (a % 2 ^ 32 : Nat) else (a % 2 ^ 32 : Nat) - 2 ^ 32

/-- Numbers that fit an `int` stay. -/
theorem toInt32_of_lt {a : Nat} (h : a < 2 ^ 31) : toInt32 a = a := by
  have hmod : a % 2 ^ 32 = a := Nat.mod_eq_of_lt (by omega)
  rw [toInt32, hmod, if_pos h]

/-! ### Failures

A fault ends the run. The last one is not a failure of the code but of the number of rounds
that a loop was given. -/

/-- Why a call does not return. -/
inductive Fault where
  /-- A failed `assert`. -/
  | assertion
  /-- An access through a pointer that points to nothing. -/
  | segfault
  /-- A C++ exception that nobody catches. -/
  | exception
  /-- An iterator to an erased element is moved on, which is undefined. -/
  | danglingIterator
  /-- The bound on the iterations of a loop is used up; an artefact of the model. -/
  | outOfFuel
  deriving DecidableEq, Repr

/-- `assert`. -/
def assert (b : Bool) : Except Fault Unit := if b then .ok () else .error .assertion

@[simp] theorem assert_true : assert true = .ok () := rfl

/-- An assertion returns if its condition holds. -/
theorem assert_eq_ok {b : Bool} {u : Unit} : assert b = .ok u ↔ b = true := by
  cases b <;> simp [assert]

/-- A sequence returns when its first part returns and the rest returns on that. -/
theorem bind_eq_ok {ε α β : Type} {x : Except ε α} {f : α → Except ε β} {b : β} :
    (x >>= f) = .ok b ↔ ∃ a, x = .ok a ∧ f a = .ok b := by
  cases x with
  | error e => simp [bind, Except.bind]
  | ok a => simp [bind, Except.bind]

/-- What is done with a result is done if there is one. -/
theorem map_eq_ok {ε α β : Type} {x : Except ε α} {f : α → β} {b : β} :
    x.map f = .ok b ↔ ∃ a, x = .ok a ∧ f a = b := by
  cases x with
  | error e => simp [Except.map]
  | ok a => simp [Except.map]

/-- A fault goes through. -/
theorem map_eq_error {ε α β : Type} {x : Except ε α} {f : α → β} {e : ε} :
    x.map f = .error e ↔ x = .error e := by
  cases x with
  | error e => simp [Except.map]
  | ok a => simp [Except.map]

@[simp] theorem ok_bind {ε α β : Type} (a : α) (f : α → Except ε β) :
    ((Except.ok a : Except ε α) >>= f) = f a := rfl

/-- What every round preserves, the loop preserves. -/
theorem foldlM_preserves {α β : Type} {f : β → α → Except Fault β} {P : β → Prop} {l : List α}
    (hf : ∀ a ∈ l, ∀ b b', P b → f b a = .ok b' → P b') {b b' : β} (hb : P b)
    (h : l.foldlM f b = .ok b') : P b' := by
  induction l generalizing b with
  | nil =>
      cases h
      exact hb
  | cons a l ih =>
      rw [List.foldlM_cons] at h
      obtain ⟨b₁, hb₁, h⟩ := bind_eq_ok.mp h
      have hP := hf a List.mem_cons_self b b₁ hb hb₁
      exact ih (fun a ha => hf a (List.mem_cons_of_mem _ ha)) hP h

end DroidPerf
