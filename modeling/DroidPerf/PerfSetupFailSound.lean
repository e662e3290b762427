import DroidPerf.PerfSetupSound

/-!
# DroidPerf.PerfSetupFailSound

`closeEvents` after a `setupEvents` that gave up.

An entry joins the thread's list at the end of an iteration, so a set-up that stops at an event
leaves the list shorter than the number of events (`setupLoop_stopped`), and nothing in it of
the descriptors and rings of the event it stopped at (`failed_event_lost`). `closeEvents` runs
over the number of events, past the end of the list.

The kernel's answers are arbitrary here. An entry that is in the list had all its calls succeed
(`succeeds_of_setupCpus`), so the list after a stop is that of a good set-up of the events
before; from its length alone it follows that closing faults (`closeEvents_past_end`).
-/

namespace DroidPerf

/-! ### Where a set-up stops

The entries are described by the answers, also where these are refusals: in an entry that was
made there are none. -/

/-- The descriptor the kernel answers for an event on a CPU. -/
def openedFd (answers : Nat → Fin 8 → SetupAnswers) (i : Nat) (c : Fin 8) : Int :=
  (answers i c).perfEventOpen

/-- The ring the kernel answers for an event on a CPU. -/
def mappedBuf (answers : Nat → Fin 8 → SetupAnswers) (i : Nat) (c : Fin 8) : Nat :=
  (answers i c).mmap.getD 0

/-- An iteration for a CPU that gave a descriptor and a ring had every system call succeed. -/
theorem succeeds_of_setupCpu {a : SetupAnswers} {k k' : Kernel} {fd : Int} {buf : Nat}
    (h : setupCpu a k = .ok (some (fd, buf), k')) : Succeeds a fd buf := by
  simp only [setupCpu] at h
  split_ifs at h with hopen hgetfl hsetfl hown hsig
  case neg =>
    cases hmap : a.mmap with
    | none => simp [hmap] at h
    | some b =>
        simp only [hmap] at h
        cases h
        exact ⟨rfl, by omega, by omega, by omega, by omega, by omega, hmap⟩
  -- the calls that make the function return false
  all_goals cases h

section Stops

variable {answers : Nat → Fin 8 → SetupAnswers}

/-- An entry that was made had every system call succeed. -/
theorem succeeds_of_setupCpus {a : Fin 8 → SetupAnswers} {cpus : List (Fin 8)}
    {et et' : PerfEventThread} {k k' : Kernel} (h : setupCpus a cpus et k = .ok (some et', k')) :
    ∀ c ∈ cpus, Succeeds (a c) (a c).perfEventOpen ((a c).mmap.getD 0) := by
  induction cpus generalizing et k with
  | nil => exact fun c hc => absurd hc List.not_mem_nil
  | cons d cpus ih =>
      rw [setupCpus] at h
      obtain ⟨⟨r, k₁⟩, hcpu, h⟩ := bind_eq_ok.mp h
      cases r with
      | none => cases h
      | some p =>
          have hd := succeeds_of_setupCpu hcpu
          intro c hc
          -- the entry of this CPU, or of one of the others
          rcases List.mem_cons.mp hc with rfl | hc
          · have hfd := hd.opened
            have hbuf := hd.mapped
            rw [hfd, hbuf]
            exact hd
          · exact ih h c hc

/-- A set-up that stops has made the entries of the events before. -/
theorem setupLoop_stopped {events : List PerfEventInfo} {i : Nat} {l l' : List PerfEventThread}
    {k k' : Kernel} (h : setupLoop answers i events l k = .ok (false, l', k')) :
    ∃ j < events.length, l' = l ++ (events.take j).mapIdx
      fun m => setupEntry (openedFd answers) (mappedBuf answers) (i + m) := by
  induction events generalizing i l k with
  | nil => cases h
  | cons event events ih =>
      rw [setupLoop] at h
      obtain ⟨⟨made, k₁⟩, hcpus, h⟩ := bind_eq_ok.mp h
      cases made with
      | none =>
          cases h
          exact ⟨0, Nat.succ_pos _, by simp⟩
      | some et =>
          have hmade := setupCpus_succeeds (succeeds_of_setupCpus hcpus)
            ⟨i, fun _ => 0, none, event⟩ k
          rw [hcpus] at hmade
          have het : et = setupEntry (openedFd answers) (mappedBuf answers) i event := by
            cases hmade
            simp only [setupEntry, List.mem_finRange, if_true]
            rfl
          obtain ⟨j, hj, hl⟩ := ih h
          refine ⟨j + 1, Nat.succ_lt_succ hj, ?_⟩
          rw [hl, het, List.take_succ_cons, List.mapIdx_cons]
          simp [Nat.add_comm, Nat.add_left_comm]

/-- The thread's list after a set-up that gave up has an entry for each event before the one it
stopped at. -/
theorem setupEvents_stopped {eventInfo : List PerfEventInfo} {w w₁ : AgentThread}
    (hfresh : w.tls.current.perfState = none)
    (h : setupEvents eventInfo answers w = .ok (false, w₁)) :
    ∃ j < eventInfo.length, w₁.tls.current.perfState =
      some ((eventInfo.take j).mapIdx (setupEntry (openedFd answers) (mappedBuf answers))) := by
  obtain ⟨⟨done, l', k'⟩, hloop, h⟩ := bind_eq_ok.mp h
  rw [hfresh] at hloop
  cases done with
  | true => cases h
  | false =>
      obtain ⟨j, hj, hl⟩ := setupLoop_stopped hloop
      cases h
      refine ⟨j, hj, ?_⟩
      rw [hl]
      simp

end Stops

/-! ### What closing does

Closing writes to the entries of the list only. It goes by the number of events it is given, so
with a list shorter than that it reads past the end. -/

/-- Closing an entry changes no counter of another one. -/
theorem closeEvent_counters {et : PerfEventThread} {f : Int} (h : f ∉ et.fds) (k : Kernel) :
    (closeEvent et k).counters f = k.counters f := by
  have hclose : ∀ (fds : List Int) (k : Kernel), f ∉ fds →
      (fds.foldl (fun k fd => if 0 ≤ fd then k.close fd else k) k).counters f = k.counters f := by
    intro fds
    induction fds with
    | nil => exact fun _ _ => rfl
    | cons fd fds ih =>
        intro k hf
        obtain ⟨hne, hf⟩ := not_or.mp (mt List.mem_cons.mpr hf)
        rw [List.foldl_cons, ih _ hf]
        split
        · exact Function.update_of_ne hne _ _
        · rfl
  rw [closeEvent, ← hclose et.fds k h]
  cases et.mmapBuf <;> rfl

/-- The loop leaves alone what is in no entry. -/
theorem closeLoop_counters {eventThreadList : List PerfEventThread} {f : Int}
    (h : f ∉ eventThreadList.flatMap PerfEventThread.fds) {is : List Nat} {k k' : Kernel}
    (hclose : closeLoop eventThreadList is k = .ok k') : k'.counters f = k.counters f := by
  induction is generalizing k with
  | nil =>
      cases hclose
      rfl
  | cons i is ih =>
      rw [closeLoop] at hclose
      cases hi : eventThreadList[i]? with
      | none => simp [hi] at hclose
      | some et =>
          simp only [hi] at hclose
          have het : f ∉ et.fds := fun hf =>
            h (List.mem_flatMap.mpr ⟨et, List.mem_of_getElem? hi, hf⟩)
          rw [ih hclose, closeEvent_counters het]

/-- The loop over the configured events leaves a shorter list at its end. -/
theorem closeLoop_past_end {eventThreadList : List PerfEventThread} {is : List Nat} {i : Nat}
    (hi : i ∈ is) (h : eventThreadList.length ≤ i) (k : Kernel) :
    closeLoop eventThreadList is k = .error .segfault := by
  induction is generalizing k with
  | nil => cases hi
  | cons j is ih =>
      rw [closeLoop]
      cases hj : eventThreadList[j]? with
      | none => rfl
      | some et =>
          rcases List.mem_cons.mp hi with rfl | hi
          · rw [List.getElem?_eq_none h] at hj
            cases hj
          · exact ih hi _

/-- `closeEvents` faults on a list with fewer entries than events. -/
theorem closeEvents_past_end {numEvents : Nat} {w : AgentThread}
    {eventThreadList : List PerfEventThread} (hl : w.tls.current.perfState = some eventThreadList)
    (h : eventThreadList.length < numEvents) : closeEvents numEvents w = .error .segfault := by
  simp only [closeEvents, hl]
  rw [closeLoop_past_end (List.mem_range.mpr h) (le_refl _)]
  rfl

/-! ### Closing after a failure

What a caller may expect of closing is `GivesBack`. It fails for two reasons, of which the
first is there on every input: the loop faults, and if it did not, the last event's descriptors
would stay. -/

/-- `closeEvents` reads entries of the list only, and after it the descriptors opened
since `w` are closed and the rings mapped since `w` are unmapped. -/
def GivesBack (numEvents : Nat) (w w₁ : AgentThread) : Prop :=
  ∃ w₂, closeEvents numEvents w₁ = .ok w₂ ∧
    (∀ fd, w.kernel.counters fd = none → (w₁.kernel.counters fd).isSome →
      w₂.kernel.counters fd = none) ∧
    ∀ b, w.kernel.rings b = none → (w₁.kernel.rings b).isSome → w₂.kernel.rings b = none

/-- **A failed set-up is not undone.** After a set-up that gave up, `closeEvents` reads past
the end of the thread's list, whatever the events are and whichever call failed. -/
theorem failed_setup_not_givesBack (eventInfo : List PerfEventInfo)
    (answers : Nat → Fin 8 → SetupAnswers) (w w₁ : AgentThread)
    (hfresh : w.tls.current.perfState = none)
    (h : setupEvents eventInfo answers w = .ok (false, w₁)) :
    ¬ GivesBack eventInfo.length w w₁ := by
  obtain ⟨j, hj, hl⟩ := setupEvents_stopped hfresh h
  have hlen : ((eventInfo.take j).mapIdx
      (setupEntry (openedFd answers) (mappedBuf answers))).length < eventInfo.length := by
    rw [List.length_mapIdx, List.length_take]
    omega
  rintro ⟨w₂, hclose, -⟩
  rw [closeEvents_past_end hl hlen] at hclose
  cases hclose

/-- The descriptors opened for the event at which the set-up stopped are in no entry:
a loop that stayed within the list would leave them open too. -/
theorem failed_event_lost {eventInfo : List PerfEventInfo}
    {answers : Nat → Fin 8 → SetupAnswers} {w w₁ : AgentThread}
    (hfresh : w.tls.current.perfState = none)
    (h : setupEvents eventInfo answers w = .ok (false, w₁))
    (hdistinct : ∀ i j c d, 0 ≤ openedFd answers i c → openedFd answers i c = openedFd answers j d →
      i = j) :
    ∃ eventThreadList, w₁.tls.current.perfState = some eventThreadList ∧
      eventThreadList.length < eventInfo.length ∧
      ∀ c, 0 ≤ openedFd answers eventThreadList.length c → ∀ k k',
        closeLoop eventThreadList (List.range eventThreadList.length) k = .ok k' →
        k'.counters (openedFd answers eventThreadList.length c) =
          k.counters (openedFd answers eventThreadList.length c) := by
  obtain ⟨j, hj, hl⟩ := setupEvents_stopped hfresh h
  have hlen : ((eventInfo.take j).mapIdx
      (setupEntry (openedFd answers) (mappedBuf answers))).length = j := by
    rw [List.length_mapIdx, List.length_take]
    omega
  refine ⟨_, hl, by rw [hlen]; exact hj, fun c hc k k' hclose => closeLoop_counters ?_ hclose⟩
  rw [hlen] at hc ⊢
  intro hmem
  obtain ⟨i, hi, d, hd⟩ := mem_setupEntries_fds.mp hmem
  rw [List.length_take] at hi
  have hij := hdistinct j i c d hc hd.symm
  omega

/-- The kernel refuses a counter on the second CPU. -/
def refusedAnswers (i : Nat) (c : Fin 8) : SetupAnswers :=
  if c.val = 1 then ⟨-1, 0, 0, 0, 0, none⟩ else plainAnswers i c

theorem refused_not_givesBack :
    ∃ w₁, setupEvents [cycles] refusedAnswers (newThread 7) = .ok (false, w₁) ∧
      ¬ GivesBack 1 (newThread 7) w₁ :=
  ⟨_, rfl, failed_setup_not_givesBack [cycles] refusedAnswers (newThread 7) _ rfl rfl⟩

/-- One event, refused on the second CPU: the list is empty, the descriptor and the ring
of the first CPU stay, and `closeEvents` reads an entry that is not there. -/
theorem refused_event_stays_open :
    ∃ w₁, setupEvents [cycles] refusedAnswers (newThread 7) = .ok (false, w₁) ∧
      w₁.kernel.counters 3 = some false ∧ (w₁.kernel.rings 8192).isSome ∧
      closeEvents 1 w₁ = .error .segfault ∧ ¬ GivesBack 1 (newThread 7) w₁ := by
  have hclose : ∀ w₁ : AgentThread, w₁.tls.current.perfState = some [] →
      closeEvents 1 w₁ = .error .segfault := fun w₁ hl => closeEvents_past_end hl Nat.one_pos
  refine ⟨_, rfl, rfl, rfl, hclose _ rfl, ?_⟩
  rintro ⟨w₂, hok, -⟩
  rw [hclose _ rfl] at hok
  cases hok

end DroidPerf
