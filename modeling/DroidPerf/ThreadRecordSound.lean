import DroidPerf.SampleGuardSound

/-!
# DroidPerf.ThreadRecordSound

The thread's record between `callbackThreadStart` and `callbackThreadEnd`.

Every callback that blocks samples goes through `TD_GET` at its entry and at its exit. In
`callbackThreadStart` the entry allocates a record before `Profiler::threadStart` puts another
one into the slot, and in `callbackThreadEnd` the exit allocates a record after
`Profiler::threadEnd` has deleted the thread's. So no sequence of callbacks from the first to
the second frees what it allocates (`recordsFreed_never`).

`SlotAccess` lists what a statement can do to the slot, and every statement of every callback
is shown to do one of these. A record that was pushed out of the slot can then never come back
(`runStmts_dropped`).
-/

namespace DroidPerf

/-- The callbacks of the agent on one thread. Those that do not block samples do not use
the thread's record; `callbackVMInit` and `MethodExit` have no effect on the thread. -/
inductive AgentCallback where
  | blocking (callback : Callback)
  | objectFree (traversal : ListSet.Traversal (List Char)) (tag : Nat)
  | vmInit
  | methodExit

/-- `BLOCK_SAMPLE` as a statement. -/
def entryStmt : Stmt := fun w => .ok (blockSample w)

/-- `UNBLOCK_SAMPLE` as a statement. -/
def exitStmt : Stmt := fun w => .ok (unblockSample w)

/-- The statements of a callback. -/
def AgentCallback.stmts (env : AgentEnv) : AgentCallback → List Stmt
  | .blocking callback => entryStmt :: (callback.body env ++ [exitStmt])
  | .objectFree traversal tag =>
    [fun w => (DroidPerf.objectFree traversal tag w.user.globals).map fun g =>
      { w with user := { w.user with globals := g } }]
  | .vmInit => []
  | .methodExit => []

/-- The statements of callbacks one after another. -/
def sequenceStmts (env : AgentEnv) (callbacks : List AgentCallback) : List Stmt :=
  callbacks.flatMap fun callback => callback.stmts env

/-- From `callbackThreadStart` to `callbackThreadEnd`, with any callbacks in between. -/
def threadSequence (answers : Nat → Fin 8 → SetupAnswers) (between : List AgentCallback) :
    List AgentCallback :=
  .blocking (.threadStart answers) :: (between ++ [.blocking .threadEnd])

/-- The records of the thread that have been allocated and not deleted. -/
def Tls.live {π κ ω : Type} (t : Tls π κ ω) : List (ThreadData π κ ω) := t.slot.toList ++ t.dropped

/-- After every statement at most one record is live, and after the last one the slot is
empty and none is. -/
structure RecordsFreed (env : AgentEnv) (w : AgentThread) (callbacks : List AgentCallback) :
    Prop where
  atMostOne : ∀ stmts w', stmts <+: sequenceStmts env callbacks → runStmts stmts w = .ok w' →
    w'.tls.live.length ≤ 1
  freed : ∀ w', runStmts (sequenceStmts env callbacks) w = .ok w' →
    w'.tls.slot = none ∧ w'.tls.live = []

/-! ### What a statement can do to the slot

Reading the slot may allocate a record, allocating another one drops what is there, and
deleting empties it. -/

/-- How a statement uses the slot. -/
inductive SlotAccess (t : AgentTls) : AgentTls → Prop
  | untouched : SlotAccess t t
  | update (f : AgentThreadData → AgentThreadData) : SlotAccess t (t.update f)
  | alloc : SlotAccess t (threadDataAlloc t)
  | dealloc : SlotAccess t { t with slot := none }

/-- Records that were pushed out of the slot are out of reach. -/
theorem SlotAccess.dropped {t t' : AgentTls} (h : SlotAccess t t') : t.dropped <:+ t'.dropped := by
  cases h with
  | untouched => exact List.suffix_rfl
  | update f =>
      cases hslot : t.slot with
      | none => simp [Tls.update, threadDataGet, threadDataAlloc, hslot]
      | some td => simp [Tls.update, threadDataGet, hslot]
  | alloc => exact List.suffix_append _ _
  | dealloc => exact List.suffix_rfl

/-- To set a field is one of the ways to use the slot. -/
theorem setThreadData_slotAccess {f : AgentThreadData → AgentThreadData} {w w' : AgentThread}
    (h : setThreadData f w = .ok w') : SlotAccess w.tls w'.tls := by
  cases h
  exact .update f

/-- A statement of `threadStart` uses the slot in one of these ways. -/
theorem threadStart_slotAccess {eventInfo : List PerfEventInfo}
    {answers : Nat → Fin 8 → SetupAnswers} {stmt : Stmt}
    (hstmt : stmt ∈ threadStart eventInfo answers) {w w' : AgentThread} (h : stmt w = .ok w') :
    SlotAccess w.tls w'.tls := by
  simp only [threadStart, List.mem_cons, List.not_mem_nil, or_false] at hstmt
  rcases hstmt with rfl | rfl | rfl | rfl | rfl | rfl | rfl | rfl
  · cases h
    exact .untouched
  · cases h
    exact .alloc
  · exact setThreadData_slotAccess h
  · exact setThreadData_slotAccess h
  · exact setThreadData_slotAccess h
  · exact setThreadData_slotAccess h
  · exact setThreadData_slotAccess h
  · obtain ⟨⟨done, w₁⟩, hsetup, rfl⟩ := map_eq_ok.mp h
    obtain ⟨-, perfState, htls⟩ := setupEvents_tls hsetup
    rw [htls]
    exact .update _

/-- A statement of `threadEnd` uses the slot in one of these ways. -/
theorem threadEnd_slotAccess {clientName : String} {stmt : Stmt}
    (hstmt : stmt ∈ threadEnd clientName) {w w' : AgentThread} (h : stmt w = .ok w') :
    SlotAccess w.tls w'.tls := by
  simp only [threadEnd, List.mem_cons, List.not_mem_nil, or_false] at hstmt
  rcases hstmt with rfl | rfl | rfl | rfl | rfl | rfl | rfl
  · exact setThreadData_slotAccess h
  · exact setThreadData_slotAccess h
  · exact setThreadData_slotAccess h
  · exact setThreadData_slotAccess h
  · exact setThreadData_slotAccess h
  · exact setThreadData_slotAccess h
  · obtain ⟨tls, hdealloc, rfl⟩ := map_eq_ok.mp h
    rw [threadDataDealloc_eq hdealloc]
    exact .dealloc

/-- A statement of a callback's body uses the slot in one of these ways. -/
theorem body_slotAccess {env : AgentEnv} {callback : Callback} {stmt : Stmt}
    (hstmt : stmt ∈ callback.body env) {w w' : AgentThread} (h : stmt w = .ok w') :
    SlotAccess w.tls w'.tls := by
  cases callback with
  | threadStart answers => exact threadStart_slotAccess hstmt h
  | threadEnd => exact threadEnd_slotAccess hstmt h
  | objectAlloc args =>
      rcases objectAlloc_tls hstmt h with htls | ⟨o, htls⟩
      · exact htls ▸ .untouched
      · exact htls ▸ .update _
  | methodEntry stackTrace =>
      rcases methodEntry_tls hstmt h with htls | ⟨o, htls⟩
      · exact htls ▸ .untouched
      · exact htls ▸ .update _
  | vmDeath | gcStart | gcEnd | classLoad | classPrepare => cases hstmt

/-- A callback with what blocks samples around it. -/
theorem AgentCallback.stmts_slotAccess {env : AgentEnv} {callback : AgentCallback} {stmt : Stmt}
    (hstmt : stmt ∈ callback.stmts env) {w w' : AgentThread} (h : stmt w = .ok w') :
    SlotAccess w.tls w'.tls := by
  cases callback with
  | blocking callback =>
      simp only [stmts, List.mem_cons, List.mem_append, List.not_mem_nil, or_false] at hstmt
      rcases hstmt with rfl | hbody | rfl
      · cases h
        exact .update fun td => { td with insideAgent := true }
      · exact body_slotAccess hbody h
      · cases h
        exact .update fun td => { td with insideAgent := false }
  | objectFree traversal tag =>
      simp only [stmts, List.mem_singleton] at hstmt
      subst hstmt
      obtain ⟨g, -, rfl⟩ := map_eq_ok.mp h
      exact .untouched
  | vmInit => cases hstmt
  | methodExit => cases hstmt

/-! ### Runs

The record that is dropped at the very start is followed to the end. -/

/-- Statements in two parts run one part after the other. -/
theorem runStmts_append {xs ys : List Stmt} {w w' : AgentThread} :
    runStmts (xs ++ ys) w = .ok w' ↔ ∃ w₁, runStmts xs w = .ok w₁ ∧ runStmts ys w₁ = .ok w' := by
  unfold runStmts
  rw [List.foldlM_append]
  exact bind_eq_ok

/-- What is out of reach stays so. -/
theorem runStmts_dropped {stmts : List Stmt}
    (haccess : ∀ stmt ∈ stmts, ∀ w w', stmt w = .ok w' → SlotAccess w.tls w'.tls)
    {w w' : AgentThread} (h : runStmts stmts w = .ok w') : w.tls.dropped <:+ w'.tls.dropped := by
  induction stmts generalizing w with
  | nil =>
      cases h
      exact List.suffix_rfl
  | cons stmt stmts ih =>
      obtain ⟨w₁, hstmt, hrest⟩ := bind_eq_ok.mp h
      have hfirst := (haccess stmt List.mem_cons_self w w₁ hstmt).dropped
      exact hfirst.trans (ih (fun s hs => haccess s (List.mem_cons_of_mem _ hs)) hrest)

/-- `callbackThreadStart` up to the call of `thread_data_alloc`. -/
def startEntry : List Stmt :=
  [ entryStmt,
    fun w => .ok { w with user := { w.user with locals := ⟨.empty, fun _ => 0, []⟩ } },
    fun w => .ok { w with tls := threadDataAlloc w.tls } ]

/-- The entry of `callbackThreadStart` drops the record that `BLOCK_SAMPLE` has used. -/
theorem startEntry_dropped (w : AgentThread) :
    ∃ w₁ td dropped, runStmts startEntry w = .ok w₁ ∧
      w₁.tls.slot = some (.zero w₁.tls.gettid) ∧ w₁.tls.dropped = td :: dropped :=
  ⟨_, _, _, rfl, rfl, rfl⟩

/-- The sequence starts with that entry and ends with `UNBLOCK_SAMPLE`. -/
theorem threadSequence_stmts (env : AgentEnv) (answers : Nat → Fin 8 → SetupAnswers)
    (between : List AgentCallback) :
    ∃ inner, sequenceStmts env (threadSequence answers between) =
      startEntry ++ (inner ++ [exitStmt]) := by
  refine ⟨(threadStart env.eventInfo answers).drop 2 ++ exitStmt ::
    (sequenceStmts env between ++ entryStmt ::
      threadEnd env.profiler.clientName), ?_⟩
  simp [sequenceStmts, threadSequence, AgentCallback.stmts, Callback.body, threadStart, startEntry]

/-- **Records are not freed.** Whatever comes between them, `callbackThreadStart` leaves two
records live at one point, and when `callbackThreadEnd` returns a record is in the slot and
another one is out of reach. -/
theorem recordsFreed_never (env : AgentEnv) (w : AgentThread)
    (answers : Nat → Fin 8 → SetupAnswers) (between : List AgentCallback) :
    ¬ RecordsFreed env w (threadSequence answers between) ∧
      ∀ w', runStmts (sequenceStmts env (threadSequence answers between)) w = .ok w' →
        w'.tls.slot ≠ none ∧ 2 ≤ w'.tls.live.length := by
  obtain ⟨inner, hstmts⟩ := threadSequence_stmts env answers between
  obtain ⟨w₁, td, dropped, hentry, hslot, hdropped⟩ := startEntry_dropped w
  constructor
  · -- one record is in the slot and one was dropped, right after the entry
    intro hfreed
    have hone := hfreed.atMostOne startEntry w₁ (hstmts ▸ List.prefix_append _ _) hentry
    simp [Tls.live, hslot, hdropped] at hone
  · intro w' hrun
    have haccess : ∀ stmt ∈ inner ++ [exitStmt], ∀ w w',
        stmt w = .ok w' → SlotAccess w.tls w'.tls := by
      intro stmt hstmt w w' h
      have hmem : stmt ∈ sequenceStmts env (threadSequence answers between) :=
        hstmts ▸ List.mem_append_right _ hstmt
      obtain ⟨callback, -, hcallback⟩ := List.mem_flatMap.mp hmem
      exact AgentCallback.stmts_slotAccess hcallback h
    rw [hstmts] at hrun
    obtain ⟨w₁', hentry', hrest⟩ := runStmts_append.mp hrun
    have hsame : w₁' = w₁ := Except.ok.inj (hentry'.symm.trans hentry)
    subst hsame
    -- the dropped one is still there at the end
    have hkept := runStmts_dropped haccess hrest
    obtain ⟨w₂, -, hlast⟩ := runStmts_append.mp hrest
    have hw' : unblockSample w₂ = w' := Except.ok.inj hlast
    have hin : ∃ td', w'.tls.slot = some td' := hw' ▸ ⟨_, rfl⟩
    obtain ⟨td', hin⟩ := hin
    have hlength : 1 ≤ w'.tls.dropped.length := by
      have hle := hkept.length_le
      rw [hdropped, List.length_cons] at hle
      omega
    refine ⟨by simp [hin], ?_⟩
    simp only [Tls.live, hin, Option.toList_some, List.length_append, List.length_singleton]
    omega

/-- A thread that starts and ends, without events. -/
def startAndEnd : List AgentCallback := threadSequence (fun _ _ => ⟨0, 0, 0, 0, 0, none⟩) []

/-- It leaves two records behind, one of them in the slot. -/
theorem recordsFreed_fails_start_end :
    ¬ RecordsFreed ⟨genericEnv, []⟩ (newThread 7) startAndEnd ∧
      ∃ w', runStmts (sequenceStmts ⟨genericEnv, []⟩ startAndEnd) (newThread 7) = .ok w' ∧
        w'.tls.slot ≠ none ∧ w'.tls.live.length = 2 := by
  have hrun : ∃ w', runStmts (sequenceStmts ⟨genericEnv, []⟩ startAndEnd) (newThread 7) = .ok w' ∧
      w'.tls.slot ≠ none ∧ w'.tls.live.length = 2 :=
    ⟨_, rfl, nofun, rfl⟩
  refine ⟨fun hfreed => ?_, hrun⟩
  obtain ⟨w', hreturns, hslot, -⟩ := hrun
  exact hslot (hfreed.freed w' hreturns).1

end DroidPerf
