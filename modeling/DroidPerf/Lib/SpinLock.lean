import Mathlib.Data.List.Basic
import Mathlib.Logic.Function.Basic

/-!
# Programs under a spin lock

Threads run programs on shared data, one step at a time and in any order. A step is an attempt
to take the lock, its release, a look at it, or one access to the data; what a thread does
between two accesses is its own matter.

A program `Keeps` the discipline of the lock if it touches the data only while it holds the
lock, and releases only what it took. Then an execution step by step does what some execution
does in which every section between taking and releasing the lock is one step (`run_settles`):
`settle` runs the section of the thread that is in one to its end. No thread waits for ever
(`exists_run_finishes`).

The proof is a reduction. In each state there is at most one holder (`Owned`), and the state is
compared with its settled one, in which the holder's section is over. A step inside the section
does not change the settled state, an attempt that fails changes nothing, and an attempt that
succeeds is the whole section of the new holder (`step_settles`). So the settled states make a
run of sections, in the order of the turns at which the lock was taken (`lockTurns`).
-/

namespace SpinLock

universe u v w

/-! ### Programs

A program is a tree: what it does next, and for every answer the program that goes on. It can end
with a value, or abort when an assertion fails. -/

/-- A program on data of type `σ`. Taking the lock is a loop around an attempt. -/
inductive Prog (σ : Type u) (α : Type v) : Type (max u v) where
  | done (a : α)
  /-- An assertion has failed. -/
  | abort
  | lock (next : Prog σ α)
  | unlock (next : Prog σ α)
  | isLocked (next : Bool → Prog σ α)
  | load (next : σ → Prog σ α)
  | update (f : σ → σ) (next : Prog σ α)

variable {σ : Type u} {α β : Type v} {ι : Type w}

namespace Prog

/-- One program after another. -/
def bind : Prog σ α → (α → Prog σ β) → Prog σ β
  | done a, k => k a
  | abort, _ => abort
  | lock next, k => lock (next.bind k)
  | unlock next, k => unlock (next.bind k)
  | isLocked next, k => isLocked fun b => (next b).bind k
  | load next, k => load fun s => (next s).bind k
  | update f next, k => update f (next.bind k)

instance : Monad (Prog σ) where
  pure := done
  bind := bind

@[simp] theorem pure_bind (a : α) (k : α → Prog σ β) : (pure a >>= k : Prog σ β) = k a := rfl

@[simp] theorem done_bind (a : α) (k : α → Prog σ β) : (done a >>= k : Prog σ β) = k a := rfl

@[simp] theorem abort_bind (k : α → Prog σ β) : (abort >>= k : Prog σ β) = abort := rfl

@[simp] theorem lock_bind (next : Prog σ α) (k : α → Prog σ β) :
    lock next >>= k = lock (next >>= k) := rfl

@[simp] theorem unlock_bind (next : Prog σ α) (k : α → Prog σ β) :
    unlock next >>= k = unlock (next >>= k) := rfl

@[simp] theorem isLocked_bind (next : Bool → Prog σ α) (k : α → Prog σ β) :
    isLocked next >>= k = isLocked fun b => next b >>= k := rfl

@[simp] theorem load_bind (next : σ → Prog σ α) (k : α → Prog σ β) :
    load next >>= k = load fun s => next s >>= k := rfl

@[simp] theorem update_bind (f : σ → σ) (next : Prog σ α) (k : α → Prog σ β) :
    update f next >>= k = update f (next >>= k) := rfl

theorem bind_assoc {γ : Type v} (p : Prog σ α) (k : α → Prog σ β) (k' : β → Prog σ γ) :
    p >>= k >>= k' = p >>= fun a => k a >>= k' := by
  induction p with
  | done a => rfl
  | abort => rfl
  | lock next ih => rw [lock_bind, lock_bind, lock_bind, ih]
  | unlock next ih => rw [unlock_bind, unlock_bind, unlock_bind, ih]
  | isLocked next ih => simp only [isLocked_bind, ih]
  | load next ih => simp only [load_bind, ih]
  | update f next ih => rw [update_bind, update_bind, update_bind, ih]

/-! ### The discipline of the lock

Whether a program may touch the data is told from the program alone, before it runs. -/

/-- The program keeps the discipline when it starts with the lock or without it (`held`), and
ends with it or without it (`held'`). It aborts only while it holds the lock, so that nobody
takes the lock any more. -/
def Keeps (held' : Bool) : Prog σ α → Bool → Prop
  | done _, held => held = held'
  | abort, held => held = true
  | lock next, held => held = false ∧ next.Keeps held' true
  | unlock next, held => held = true ∧ next.Keeps held' false
  | isLocked next, held => held = true ∧ (next true).Keeps held' true
  | load next, held => held = true ∧ ∀ s, (next s).Keeps held' true
  | update _ next, held => held = true ∧ next.Keeps held' true

section Keeps

variable {held held' : Bool}

@[simp] theorem keeps_done {a : α} : (done a : Prog σ α).Keeps held' held ↔ held = held' := Iff.rfl

@[simp] theorem keeps_abort : (abort : Prog σ α).Keeps held' held ↔ held = true := Iff.rfl

@[simp] theorem keeps_lock {next : Prog σ α} :
    (lock next).Keeps held' held ↔ held = false ∧ next.Keeps held' true := Iff.rfl

@[simp] theorem keeps_unlock {next : Prog σ α} :
    (unlock next).Keeps held' held ↔ held = true ∧ next.Keeps held' false := Iff.rfl

@[simp] theorem keeps_isLocked {next : Bool → Prog σ α} :
    (isLocked next).Keeps held' held ↔ held = true ∧ (next true).Keeps held' true := Iff.rfl

@[simp] theorem keeps_load {next : σ → Prog σ α} :
    (load next).Keeps held' held ↔ held = true ∧ ∀ s, (next s).Keeps held' true := Iff.rfl

@[simp] theorem keeps_update {f : σ → σ} {next : Prog σ α} :
    (update f next).Keeps held' held ↔ held = true ∧ next.Keeps held' true := Iff.rfl

end Keeps

/-- The discipline is kept by one program after another. -/
theorem Keeps.bind {p : Prog σ α} {k : α → Prog σ β} {held m held' : Bool}
    (hp : p.Keeps m held) (hk : ∀ a, (k a).Keeps held' m) : (p >>= k).Keeps held' held := by
  induction p generalizing held with
  | done a =>
      obtain rfl : held = m := hp
      exact hk a
  | abort => exact hp
  | lock next ih => exact ⟨hp.1, ih hp.2⟩
  | unlock next ih => exact ⟨hp.1, ih hp.2⟩
  | isLocked next ih => exact ⟨hp.1, ih true hp.2⟩
  | load next ih => exact ⟨hp.1, fun s => ih s (hp.2 s)⟩
  | update f next ih => exact ⟨hp.1, ih hp.2⟩

/-- Runs the section of a program that holds the lock to the release of the lock. A program
that ends or aborts inside its section stays there. -/
def finish : Prog σ α → σ → σ × Prog σ α
  | unlock next, s => (s, next)
  | isLocked next, s => (next true).finish s
  | load next, s => (next s).finish s
  | update f next, s => next.finish (f s)
  | done a, s => (s, done a)
  | abort, s => (s, abort)
  | lock next, s => (s, lock next)

/-- A program from taking the lock to releasing it. -/
def withLock (body : Prog σ α) : Prog σ α :=
  lock (body >>= fun a => unlock (done a))

/-- A body that keeps the lock is a whole section between taking and releasing it. -/
theorem Keeps.withLock {body : Prog σ α} (h : body.Keeps true true) : body.withLock.Keeps false false :=
  ⟨rfl, h.bind fun _ => ⟨rfl, rfl⟩⟩

end Prog

/-! ### Threads

A step is made by one thread, and which one is up to the schedule. Beside it stands the system
whose steps are whole sections, and `settle` leads from the one to the other. -/

/-- The lock, the data and what each thread has still to run. -/
structure System (σ : Type u) (ι : Type w) (α : Type v) where
  locked : Bool
  data : σ
  threads : ι → Prog σ α

namespace System

variable [DecidableEq ι]

/-- The next step of a thread. An attempt to take a lock that is taken changes nothing. -/
def step (c : System σ ι α) (i : ι) : System σ ι α :=
  match c.threads i with
  | .done _ => c
  | .abort => c
  | .lock next =>
    if c.locked then c
    else { c with locked := true, threads := Function.update c.threads i next }
  | .unlock next => { c with locked := false, threads := Function.update c.threads i next }
  | .isLocked next => { c with threads := Function.update c.threads i (next c.locked) }
  | .load next => { c with threads := Function.update c.threads i (next c.data) }
  | .update f next =>
    { c with data := f c.data, threads := Function.update c.threads i next }

/-- The steps of the threads in the order of the schedule. -/
def run (c : System σ ι α) (schedule : List ι) : System σ ι α := schedule.foldl step c

/-- Whether the next step of a thread takes the lock. -/
def takesLock (c : System σ ι α) (i : ι) : Bool :=
  match c.threads i with
  | .lock _ => !c.locked
  | _ => false

/-- The turns of a schedule at which the lock is taken. -/
def lockTurns (c : System σ ι α) : List ι → List ι
  | [] => []
  | i :: schedule =>
    if c.takesLock i then i :: (c.step i).lockTurns schedule else (c.step i).lockTurns schedule

/-- A whole section of a thread as one step. -/
def atomicStep (c : System σ ι α) (i : ι) : System σ ι α :=
  match c.threads i with
  | .lock next =>
    { c with
      data := (next.finish c.data).1
      threads := Function.update c.threads i (next.finish c.data).2 }
  | _ => c

/-- Whole sections in the order of the schedule. -/
def atomicRun (c : System σ ι α) (schedule : List ι) : System σ ι α := schedule.foldl atomicStep c

/-- The lock is taken when there is a holder, and every thread keeps the discipline, the
holder from inside a section. -/
def Owned (holder : Option ι) (c : System σ ι α) : Prop :=
  c.locked = holder.isSome ∧ ∀ i, (c.threads i).Keeps false (decide (holder = some i))

/-- The holder's section run to its end. -/
def settle (c : System σ ι α) : Option ι → System σ ι α
  | none => c
  | some i =>
    { locked := false
      data := ((c.threads i).finish c.data).1
      threads := Function.update c.threads i ((c.threads i).finish c.data).2 }

variable {c : System σ ι α} {holder : Option ι}

/-! ### The reduction

One step first, and then the steps of a schedule. -/

/-- What a thread has still to run keeps the discipline. -/
theorem Owned.keeps (h : c.Owned holder) (i : ι) :
    (c.threads i).Keeps false (decide (holder = some i)) := h.2 i

/-- Replacing the program of one thread, with what the others need. -/
theorem Owned.set {i : ι} {p : Prog σ α} (h : c.Owned holder) (holder' : Option ι) (data : σ)
    (hp : p.Keeps false (decide (holder' = some i)))
    (hothers : ∀ j, j ≠ i → (holder' = some j ↔ holder = some j)) :
    (⟨holder'.isSome, data, Function.update c.threads i p⟩ : System σ ι α).Owned holder' := by
  refine ⟨rfl, fun j => ?_⟩
  rcases eq_or_ne j i with rfl | hne
  · simpa using hp
  · have hkeeps := h.keeps j
    simpa [Function.update_of_ne hne, hothers j hne] using hkeeps

/-- **One step.** It is a part of a section, and the settled state stays; or it takes the lock,
and the settled state goes on by the whole section. `holder'` is who holds the lock afterwards. -/
theorem step_settles (h : c.Owned holder) (i : ι) :
    ∃ holder', (c.step i).Owned holder' ∧ (∀ j, holder' = some j → j = i ∨ holder = some j) ∧
      (c.step i).settle holder' =
        if c.takesLock i then (c.settle holder).atomicStep i else c.settle holder := by
  obtain ⟨locked, data, threads⟩ := c
  have hlocked : locked = holder.isSome := h.1
  have hkeeps := h.keeps i
  dsimp only at hkeeps
  cases hp : threads i with
  | done a =>
      exact ⟨holder, by simpa [step, hp] using h, fun _ => .inr, by simp [step, takesLock, hp]⟩
  | abort =>
      exact ⟨holder, by simpa [step, hp] using h, fun _ => .inr, by simp [step, takesLock, hp]⟩
  | lock next =>
      -- an attempt: it fails while somebody else is in a section, and else the section begins
      rw [hp] at hkeeps
      cases holder with
      | some j =>
          exact ⟨some j, by simpa [step, hp, hlocked] using h, fun _ => .inr,
            by simp [step, takesLock, hp, hlocked]⟩
      | none =>
          refine ⟨some i, ?_, by simp +contextual, ?_⟩
          · simpa [step, hp, hlocked] using
              h.set (i := i) (some i) data (by simpa using hkeeps.2) (by simp +contextual [eq_comm])
          · simp [step, takesLock, hp, hlocked, settle, atomicStep]
  | unlock next =>
      -- the section ends here, so nothing of it is left to run
      rw [hp] at hkeeps
      obtain rfl := of_decide_eq_true hkeeps.1
      refine ⟨none, ?_, by simp, ?_⟩
      · simpa [step, hp] using
          h.set (i := i) none data (by simpa using hkeeps.2) (by simp +contextual [eq_comm])
      · simp [step, takesLock, hp, settle, Prog.finish]
  | isLocked next =>
      rw [hp] at hkeeps
      obtain rfl := of_decide_eq_true hkeeps.1
      refine ⟨some i, ?_, fun _ => .inr, ?_⟩
      · simpa [step, hp, hlocked] using
          h.set (i := i) (some i) data (by simpa using hkeeps.2) (fun _ _ => Iff.rfl)
      · simp [step, takesLock, hp, hlocked, settle, Prog.finish]
  | load next =>
      -- the rest of the section reads the same data when it is run at once
      rw [hp] at hkeeps
      obtain rfl := of_decide_eq_true hkeeps.1
      refine ⟨some i, ?_, fun _ => .inr, ?_⟩
      · simpa [step, hp, hlocked] using
          h.set (i := i) (some i) data (by simpa using hkeeps.2 data) (fun _ _ => Iff.rfl)
      · simp [step, takesLock, hp, settle, Prog.finish]
  | update f next =>
      rw [hp] at hkeeps
      obtain rfl := of_decide_eq_true hkeeps.1
      refine ⟨some i, ?_, fun _ => .inr, ?_⟩
      · simpa [step, hp, hlocked] using
          h.set (i := i) (some i) (f data) (by simpa using hkeeps.2) (fun _ _ => Iff.rfl)
      · simp [step, takesLock, hp, settle, Prog.finish]

@[simp] theorem run_nil (c : System σ ι α) : c.run [] = c := rfl

@[simp] theorem run_cons (c : System σ ι α) (i : ι) (schedule : List ι) :
    c.run (i :: schedule) = (c.step i).run schedule := rfl

theorem run_append (c : System σ ι α) (schedule schedule' : List ι) :
    c.run (schedule ++ schedule') = (c.run schedule).run schedule' := List.foldl_append

@[simp] theorem atomicRun_cons (c : System σ ι α) (i : ι) (schedule : List ι) :
    c.atomicRun (i :: schedule) = (c.atomicStep i).atomicRun schedule := rfl

/-- The turns that take the lock are turns of the schedule. -/
theorem lockTurns_sublist (c : System σ ι α) (schedule : List ι) :
    (c.lockTurns schedule).Sublist schedule := by
  induction schedule generalizing c with
  | nil => exact .slnil
  | cons i schedule ih =>
      rw [lockTurns]
      split
      · exact (ih (c.step i)).cons_cons i
      · exact (ih (c.step i)).cons i

/-- **The reduction.** Whatever the order of the steps, running the section of the holder to
its end gives what whole sections give, in the order in which they took the lock. -/
theorem run_settles (h : c.Owned holder) (schedule : List ι) :
    ∃ holder', (c.run schedule).Owned holder' ∧
      (c.run schedule).settle holder' = (c.settle holder).atomicRun (c.lockTurns schedule) := by
  induction schedule generalizing c holder with
  | nil => exact ⟨holder, h, rfl⟩
  | cons i schedule ih =>
      obtain ⟨holder₁, h₁, -, hstep⟩ := step_settles h i
      obtain ⟨holder', h', hrest⟩ := ih h₁
      refine ⟨holder', h', ?_⟩
      rw [run_cons, hrest, hstep, lockTurns]
      split
      · rfl
      · rfl

/-! ### Progress

A thread that holds the lock, or finds it free, comes to its end by itself if it is left alone.
So the holder can be run first and the others after it, one by one. -/

/-- A step of one thread leaves the programs of the others. -/
theorem step_threads_of_ne {i j : ι} (hne : j ≠ i) : (c.step i).threads j = c.threads j := by
  unfold step
  split
  · rfl
  · rfl
  · split
    · rfl
    · exact Function.update_of_ne hne _ _
  all_goals exact Function.update_of_ne hne _ _

/-- The thread comes to its end when it runs alone, and leaves the lock free unless it
aborts. -/
def EndsAlone (c : System σ ι α) (i : ι) : Prop :=
  ∃ n, (∀ j, j ≠ i → (c.run (List.replicate n i)).threads j = c.threads j) ∧
    ((c.run (List.replicate n i)).threads i = .abort ∨
      (c.run (List.replicate n i)).Owned none ∧
        ∃ a, (c.run (List.replicate n i)).threads i = .done a)

/-- A thread that comes to its end after a step comes to it. -/
theorem EndsAlone.of_step {i : ι} (h : (c.step i).EndsAlone i) : c.EndsAlone i := by
  obtain ⟨n, hothers, hend⟩ := h
  exact ⟨n + 1, fun j hne => (hothers j hne).trans (step_threads_of_ne hne), hend⟩

/-- Every later state in which no other thread holds the lock is one from which the thread
comes to its end, and so is this one. -/
theorem Owned.endsAlone_of_next {i : ι} {next : Prog σ α} (h : c.Owned holder)
    (hholder : ∀ j, holder = some j → j = i) (hnext : (c.step i).threads i = next)
    (ih : ∀ (c' : System σ ι α) (holder' : Option ι), c'.Owned holder' →
      (∀ j, holder' = some j → j = i) → c'.threads i = next → c'.EndsAlone i) : c.EndsAlone i := by
  obtain ⟨holder', h', honly, -⟩ := step_settles h i
  exact (ih _ holder' h' (fun j hj => (honly j hj).elim id (hholder j)) hnext).of_step

/-- A thread comes to its end alone if it holds the lock or finds it free. -/
theorem Owned.endsAlone {i : ι} (h : c.Owned holder) (hholder : ∀ j, holder = some j → j = i) :
    c.EndsAlone i := by
  generalize hp : c.threads i = p
  -- the induction is on the program of the thread: each step leaves a part of it
  induction p generalizing c holder with
  | done a =>
      refine ⟨0, fun _ _ => rfl, .inr ⟨?_, a, hp⟩⟩
      have hkeeps := h.keeps i
      rw [hp] at hkeeps
      have hnone : holder = none := by
        cases holder with
        | none => rfl
        | some j =>
            obtain rfl := hholder j rfl
            simp [Prog.Keeps] at hkeeps
      rwa [← hnone]
  | abort => exact ⟨0, fun _ _ => rfl, .inl hp⟩
  | lock next ih =>
      have hkeeps := h.keeps i
      rw [hp] at hkeeps
      have hfree : c.locked = false := by
        rw [h.1]
        cases holder with
        | none => rfl
        | some j => exact absurd (hholder j rfl) (by simpa [Prog.Keeps] using hkeeps.1)
      exact h.endsAlone_of_next hholder (by simp [step, hp, hfree]) fun _ _ h' => ih h'
  | unlock next ih =>
      exact h.endsAlone_of_next hholder (by simp [step, hp]) fun _ _ h' => ih h'
  | isLocked next ih =>
      refine h.endsAlone_of_next hholder ?_ fun _ _ h' => ih c.locked h'
      simp [step, hp]
  | load next ih =>
      refine h.endsAlone_of_next hholder ?_ fun _ _ h' => ih c.data h'
      simp [step, hp]
  | update f next ih =>
      exact h.endsAlone_of_next hholder (by simp [step, hp]) fun _ _ h' => ih h'

/-- With the lock free, the threads are run one after another. -/
theorem exists_run_finishes_of_free (h : c.Owned none) (is : List ι) :
    ∃ schedule, (∃ j, (c.run schedule).threads j = .abort) ∨ (c.run schedule).Owned none ∧
      ∀ i ∈ is, ∃ a, (c.run schedule).threads i = .done a := by
  induction is with
  | nil => exact ⟨[], .inr ⟨h, by simp⟩⟩
  | cons i is ih =>
      obtain ⟨schedule, habort | ⟨hfree, hdone⟩⟩ := ih
      · exact ⟨schedule, .inl habort⟩
      · obtain ⟨n, hothers, hend⟩ := hfree.endsAlone (i := i) (by simp)
        refine ⟨schedule ++ List.replicate n i, ?_⟩
        rw [run_append]
        rcases hend with habort | ⟨hfree', hdone'⟩
        · exact .inl ⟨i, habort⟩
        · refine .inr ⟨hfree', fun j hj => ?_⟩
          rcases eq_or_ne j i with rfl | hne
          · exact hdone'
          · rw [hothers j hne]
            exact hdone j ((List.mem_cons.mp hj).resolve_left hne)

/-- No thread waits for ever: at any time the threads can go on so that all of some given ones
come to their ends, unless one aborts. -/
theorem Owned.exists_run_finishes (h : c.Owned holder) (is : List ι) :
    ∃ schedule, (∃ j, (c.run schedule).threads j = .abort) ∨
      ∀ i ∈ is, ∃ a, (c.run schedule).threads i = .done a := by
  -- the holder leaves its section first
  obtain ⟨first, hfirst⟩ : ∃ first, (∃ j, (c.run first).threads j = .abort) ∨
      (c.run first).Owned none := by
    cases holder with
    | none => exact ⟨[], .inr h⟩
    | some j =>
        obtain ⟨n, -, habort | ⟨hfree, -⟩⟩ := h.endsAlone (i := j) (by simp)
        · exact ⟨List.replicate n j, .inl ⟨j, habort⟩⟩
        · exact ⟨List.replicate n j, .inr hfree⟩
  rcases hfirst with habort | hfree
  · exact ⟨first, .inl habort⟩
  · obtain ⟨schedule, hend⟩ := exists_run_finishes_of_free hfree is
    exact ⟨first ++ schedule, by rw [run_append]; exact hend.imp id And.right⟩

/-! ### Exclusion

What the holder can tell, and that there is only one. -/

/-- A look at the lock from inside a section finds it taken. -/
theorem Owned.locked_of_isLocked {i : ι} {next : Bool → Prog σ α} (h : c.Owned holder)
    (hp : c.threads i = .isLocked next) : c.locked = true := by
  have hkeeps := h.keeps i
  rw [hp] at hkeeps
  rw [h.1, of_decide_eq_true hkeeps.1]
  rfl

/-- A thread that has aborted has kept the lock. -/
theorem Owned.locked_of_abort {i : ι} (h : c.Owned holder) (hp : c.threads i = .abort) :
    c.locked = true := by
  have hkeeps := h.keeps i
  rw [hp] at hkeeps
  rw [h.1, of_decide_eq_true hkeeps]
  rfl

/-- The thread is about to touch the data. -/
def Accesses (c : System σ ι α) (i : ι) : Prop :=
  (∃ next, c.threads i = .load next) ∨ ∃ f next, c.threads i = .update f next

/-- Who is about to touch the data holds the lock. -/
theorem Owned.holder_of_accesses {i : ι} (h : c.Owned holder) (hp : c.Accesses i) :
    holder = some i := by
  have hkeeps := h.keeps i
  obtain ⟨next, hp⟩ | ⟨f, next, hp⟩ := hp
  · rw [hp] at hkeeps
    exact of_decide_eq_true hkeeps.1
  · rw [hp] at hkeeps
    exact of_decide_eq_true hkeeps.1

/-- No two threads are about to touch the data. -/
theorem Owned.accesses_unique {i j : ι} (h : c.Owned holder) (hi : c.Accesses i)
    (hj : c.Accesses j) : i = j :=
  Option.some.inj ((h.holder_of_accesses hi).symm.trans (h.holder_of_accesses hj))

end System

end SpinLock
