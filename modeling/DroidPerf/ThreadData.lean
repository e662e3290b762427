import DroidPerf.Machine

/-!
# DroidPerf.ThreadData

The agent's per-thread record (`thread_data.cpp`) and the sampling guard in it
(`safe-sampling.h`).

The `void *` fields are optional values of the types `π` (the thread's events), `κ` (its
context tree) and `ω` (its output streams). A thread reaches its record only through the
thread-specific slot, so the record is kept in the slot; `dropped` are the records that were
pushed out of the slot without being deleted.

All accesses go through `TD_GET`, which allocates a record when there is none. So a read of the
record is `current`, a write is `update`, and the simp lemmas below say how the two meet; no
proof has to look into the slot.
-/

namespace DroidPerf

/-- `GENERIC`. -/
def generic : String := "GENERIC"
/-- `HEAP`. -/
def heap : String := "HEAP"
/-- `ALLOCATION_TIMES`. -/
def allocationTimes : String := "ALLOCTIMES"

/-- `thread_data_t`. -/
structure ThreadData (π κ ω : Type) where
  tid : Nat
  insideAgent : Bool
  perfState : Option π
  contextState : Option κ
  outputState : Option ω
  outputStateTrace : Option ω
  outputStateAlloc : Option ω
  outputStateCachemiss : Option ω
  ctxtSampleState : Fin 4 → Option κ

/-- What the thread library holds for one thread: its id and the slot of the agent's
key. -/
structure Tls (π κ ω : Type) where
  gettid : Nat
  slot : Option (ThreadData π κ ω)
  dropped : List (ThreadData π κ ω)

section Slot

variable {π κ ω : Type}

/-- A record after `memset` with the fields that `thread_data_alloc` sets. -/
def ThreadData.zero (tid : Nat) : ThreadData π κ ω :=
  ⟨tid, false, none, none, none, none, none, none, fun _ => none⟩

/-- `thread_data_alloc`. A record that was in the slot stays allocated, and nobody can reach
it. -/
def threadDataAlloc (t : Tls π κ ω) : Tls π κ ω :=
  { t with slot := some (.zero t.gettid), dropped := t.slot.toList ++ t.dropped }

/-- `thread_data_get`: the thread's record, allocated on first use. -/
def threadDataGet (t : Tls π κ ω) : ThreadData π κ ω × Tls π κ ω :=
  match t.slot with
  | some td => (td, t)
  | none => (.zero t.gettid, threadDataAlloc t)

/-- The record `TD_GET` reads. -/
def Tls.current (t : Tls π κ ω) : ThreadData π κ ω := (threadDataGet t).1

/-- `TD_GET(field) = value`. -/
def Tls.update (f : ThreadData π κ ω → ThreadData π κ ω) (t : Tls π κ ω) : Tls π κ ω :=
  let (td, t) := threadDataGet t
  { t with slot := some (f td) }

@[simp] theorem Tls.current_update (f : ThreadData π κ ω → ThreadData π κ ω) (t : Tls π κ ω) :
    (t.update f).current = f t.current := rfl

@[simp] theorem current_threadDataGet (t : Tls π κ ω) :
    (threadDataGet t).2.current = t.current := by
  cases h : t.slot <;> simp [threadDataGet, threadDataAlloc, Tls.current, h]

@[simp] theorem current_threadDataAlloc (t : Tls π κ ω) :
    (threadDataAlloc t).current = .zero t.gettid := rfl

/-- `thread_data_dealloc`. The assertions are for clients with events or contexts; the record
is deleted and the slot emptied. -/
def threadDataDealloc (clientName : String) (t : Tls π κ ω) : Except Fault (Tls π κ ω) :=
  match t.slot with
  | none => .ok t
  | some td => do
    if clientName ≠ generic ∧ clientName ≠ heap ∧ clientName ≠ allocationTimes then
      assert td.perfState.isNone
    assert td.contextState.isNone
    assert td.outputState.isNone
    assert ((List.finRange 4).all fun i => (td.ctxtSampleState i).isNone)
    return { t with slot := none }

/-! ### The sampling guard

The guard is a flag of the record: a signal that finds it set leaves at once. It is no counter,
so the exit clears it whatever it was before. -/

/-- `profiler_safe_enter`. -/
def profilerSafeEnter (t : Tls π κ ω) : Bool × Tls π κ ω :=
  let (td, t) := threadDataGet t
  (td.insideAgent = false, t.update fun td => { td with insideAgent := true })

/-- `profiler_safe_exit`. -/
def profilerSafeExit (t : Tls π κ ω) : Tls π κ ω :=
  t.update fun td => { td with insideAgent := false }

@[simp] theorem profilerSafeEnter_fst (t : Tls π κ ω) :
    (profilerSafeEnter t).1 = !t.current.insideAgent := by
  show decide (t.current.insideAgent = false) = _
  cases t.current.insideAgent <;> rfl

@[simp] theorem current_profilerSafeEnter (t : Tls π κ ω) :
    (profilerSafeEnter t).2.current = { t.current with insideAgent := true } := by
  simp [profilerSafeEnter]

@[simp] theorem current_profilerSafeExit (t : Tls π κ ω) :
    (profilerSafeExit t).current = { t.current with insideAgent := false } := rfl

end Slot

end DroidPerf
