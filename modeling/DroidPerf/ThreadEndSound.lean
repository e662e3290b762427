import DroidPerf.SampleGuardSound
import DroidPerf.PerfSetupSound

/-!
# DroidPerf.ThreadEndSound

The assertions of `thread_data_dealloc` at the end of a thread.

`Profiler::threadEnd` clears every field of the record that is tested but the events, whose
`closeEvents` is commented out. They are tested for all clients but three, and they are there
whenever the thread was started (`threadEnd_iff`).

Two things are shown. When `thread_data_dealloc` is called, the record is empty but for its
events, so its assertions are about these (`runStmts_threadEnd`). And from the start of a
thread on there are events at every moment, whatever callbacks come and however they are
nested: `Armed` is the invariant, with `Armed.step` for one step and `Armed.steps` for a run.
-/

namespace DroidPerf

/-- The clients whose threads end without a test of their events. -/
def Untested (clientName : String) : Prop :=
  clientName = generic ∨ clientName = heap ∨ clientName = allocationTimes

/-- The clients whose threads are tested are all but three. -/
theorem not_untested_iff {clientName : String} : ¬Untested clientName ↔
    clientName ≠ generic ∧ clientName ≠ heap ∧ clientName ≠ allocationTimes := by
  rw [Untested, not_or, not_or]

/-! ### `Profiler::threadEnd`

All of its statements but the last one clear a field. -/

/-- The record when `thread_data_dealloc` is called. -/
def clearedRecord (td : AgentThreadData) : AgentThreadData :=
  { td with
    outputState := none
    outputStateTrace := none
    outputStateAlloc := none
    outputStateCachemiss := none
    contextState := none
    ctxtSampleState := fun _ => none }

/-- The statements of `threadEnd` come to `thread_data_dealloc` on a record that is cleared but
for the events. -/
theorem runStmts_threadEnd (clientName : String) (w : AgentThread) :
    runStmts (threadEnd clientName) w =
      (threadDataDealloc clientName
        { (threadDataGet w.tls).2 with slot := some (clearedRecord w.tls.current) }).map
          fun tls => { w with tls := tls } := by
  simp only [runStmts, threadEnd, setThreadData, List.foldlM_cons, List.foldlM_nil, ok_bind,
    bind_pure]
  rfl

/-- Without the test of the events no assertion fails. -/
theorem threadDataDealloc_untested {clientName : String} (h : Untested clientName) (t : AgentTls)
    (td : AgentThreadData) :
    threadDataDealloc clientName { t with slot := some (clearedRecord td) } =
      .ok { t with slot := none } := by
  have htest := mt not_untested_iff.mpr (not_not_intro h)
  unfold threadDataDealloc
  dsimp only
  rw [if_neg htest]
  rfl

/-- With the test of the events the assertion about them fails. -/
theorem threadDataDealloc_tested {clientName : String} (h : ¬Untested clientName) (t : AgentTls)
    {td : AgentThreadData} (htd : td.perfState ≠ none) :
    threadDataDealloc clientName { t with slot := some (clearedRecord td) } =
      .error .assertion := by
  have htest := not_untested_iff.mp h
  obtain ⟨events, hevents⟩ := Option.ne_none_iff_exists'.mp htd
  unfold threadDataDealloc
  dsimp only [clearedRecord]
  rw [if_pos htest, hevents]
  rfl

/-- The end of a thread, by its client and its events. -/
theorem threadEnd_untested {env : AgentEnv} (h : Untested env.profiler.clientName)
    (w : AgentThread) : ∃ w', runCallback env .threadEnd w = .ok w' := by
  rw [runCallback, Callback.body, runStmts_threadEnd, threadDataDealloc_untested h]
  exact ⟨_, rfl⟩

/-- With a tested client and with events, the end of the thread fails. -/
theorem threadEnd_tested {env : AgentEnv} (h : ¬Untested env.profiler.clientName)
    {w : AgentThread} (hevents : w.tls.current.perfState ≠ none) :
    runCallback env .threadEnd w = .error .assertion := by
  have hevents' : (blockSample w).tls.current.perfState ≠ none := by
    rwa [blockSample, Tls.current_update]
  rw [runCallback, Callback.body, runStmts_threadEnd, threadDataDealloc_tested h _ hevents']
  rfl

/-! ### Where the events come from and go to

Of all statements of all callbacks, one sets the events and one deletes the record. No other
one touches them. -/

/-- The last statement of `Profiler::threadStart`. -/
def setupStmt (env : AgentEnv) (answers : Nat → Fin 8 → SetupAnswers) : Stmt :=
  fun w => (setupEvents env.eventInfo answers w).map Prod.snd

/-- The last statement of `Profiler::threadEnd`. -/
def deallocStmt (env : AgentEnv) : Stmt :=
  fun w => (threadDataDealloc env.profiler.clientName w.tls).map fun tls => { w with tls := tls }

/-- A statement that leaves the thread its events. -/
def KeepsEvents (stmt : Stmt) : Prop :=
  ∀ w w', stmt w = .ok w' → w'.tls.current.perfState = w.tls.current.perfState

/-- After the set-up there are events. -/
theorem setupStmt_events {env : AgentEnv} {answers : Nat → Fin 8 → SetupAnswers}
    {w w' : AgentThread} (h : setupStmt env answers w = .ok w') :
    w'.tls.current.perfState ≠ none := by
  obtain ⟨⟨done, w₁⟩, hsetup, rfl⟩ := map_eq_ok.mp h
  obtain ⟨⟨done', eventThreadList, kernel⟩, -, hsetup⟩ := bind_eq_ok.mp hsetup
  dsimp only at hsetup
  split at hsetup
  · cases hsetup
    simp
  · cases hsetup
    simp

/-- The record is deleted without an assertion only if the client is not tested or there are no
events. -/
theorem deallocStmt_events {env : AgentEnv} (h : ¬Untested env.profiler.clientName)
    {w w' : AgentThread} (hdealloc : deallocStmt env w = .ok w') :
    w.tls.current.perfState = none := by
  obtain ⟨tls, hdealloc, -⟩ := map_eq_ok.mp hdealloc
  have htest := not_untested_iff.mp h
  unfold threadDataDealloc at hdealloc
  cases hslot : w.tls.slot with
  | none => simp [Tls.current, threadDataGet, hslot, ThreadData.zero]
  | some td =>
      rw [hslot] at hdealloc
      dsimp only at hdealloc
      rw [if_pos htest] at hdealloc
      obtain ⟨_, hassert, -⟩ := bind_eq_ok.mp hdealloc
      have hnone : td.perfState = none := Option.isNone_iff_eq_none.mp (assert_eq_ok.mp hassert)
      simp [Tls.current, threadDataGet, hslot, hnone]

/-- To set another field leaves the events. -/
theorem setThreadData_keepsEvents {f : AgentThreadData → AgentThreadData}
    (hf : ∀ td, (f td).perfState = td.perfState) : KeepsEvents (setThreadData f) := by
  intro w w' h
  cases h
  exact hf _

/-- Every statement of `threadEnd` but the last one leaves the events. -/
theorem threadEnd_stmt {env : AgentEnv} {stmt : Stmt}
    (h : stmt ∈ threadEnd env.profiler.clientName) : stmt = deallocStmt env ∨ KeepsEvents stmt := by
  simp only [threadEnd, List.mem_cons, List.not_mem_nil, or_false] at h
  rcases h with rfl | rfl | rfl | rfl | rfl | rfl | rfl
  · exact .inr (setThreadData_keepsEvents fun _ => rfl)
  · exact .inr (setThreadData_keepsEvents fun _ => rfl)
  · exact .inr (setThreadData_keepsEvents fun _ => rfl)
  · exact .inr (setThreadData_keepsEvents fun _ => rfl)
  · exact .inr (setThreadData_keepsEvents fun _ => rfl)
  · exact .inr (setThreadData_keepsEvents fun _ => rfl)
  · exact .inl rfl

/-- What a part of a list with a known last element begins with. -/
theorem suffix_concat {α : Type} {a last : α} {l init : List α} (h : a :: l <:+ init ++ [last]) :
    a = last ∨ last ∈ l := by
  obtain ⟨t, ht⟩ := h
  have hlast : (a :: l).getLast? = some last := by
    rw [← List.getLast?_append_of_ne_nil t (List.cons_ne_nil a l), ht, List.getLast?_concat]
  cases l with
  | nil => exact .inl (Option.some.inj hlast)
  | cons b l => exact .inr (List.mem_of_getLast? hlast)

/-- The set-up is the last statement of the start. -/
theorem threadStart_body (env : AgentEnv) (answers : Nat → Fin 8 → SetupAnswers) :
    (Callback.threadStart answers).body env =
      ((Callback.threadStart answers).body env).dropLast ++ [setupStmt env answers] := rfl

/-- What a callback's next statement does to the events of the thread. -/
theorem stmt_cases {env : AgentEnv} {callback : Callback} {stmt : Stmt} {rest : List Stmt}
    (h : stmt :: rest <:+ callback.body env) :
    (∃ answers, stmt = setupStmt env answers) ∨ (∃ answers, setupStmt env answers ∈ rest) ∨
      stmt = deallocStmt env ∨ KeepsEvents stmt := by
  have hmem : stmt ∈ callback.body env := h.subset List.mem_cons_self
  cases callback with
  | threadStart answers =>
      -- before the set-up comes the rest of the callback with the set-up in it
      rw [threadStart_body] at h
      rcases suffix_concat h with hlast | hrest
      · exact .inl ⟨answers, hlast⟩
      · exact .inr (.inl ⟨answers, hrest⟩)
  | threadEnd => exact .inr (.inr (threadEnd_stmt hmem))
  | objectAlloc args =>
      refine .inr (.inr (.inr fun w w' hstmt => ?_))
      rcases objectAlloc_tls hmem hstmt with htls | ⟨o, htls⟩
      · rw [htls]
      · rw [htls, Tls.current_update]
  | methodEntry stackTrace =>
      refine .inr (.inr (.inr fun w w' hstmt => ?_))
      rcases methodEntry_tls hmem hstmt with htls | ⟨o, htls⟩
      · rw [htls]
      · rw [htls, Tls.current_update]
  | vmDeath | gcStart | gcEnd | classLoad | classPrepare => cases hmem

/-- A sample leaves the thread its events. -/
theorem perfEventHandler_events {env : ProfilerEnv} {mask fuel : Nat} {siginfo : SigInfo}
    {w w' : AgentThread}
    (h : perfEventHandler mask (some (onSample env)) fuel siginfo w = .ok w') :
    w'.tls.current.perfState = w.tls.current.perfState := by
  refine perfEventHandler_preserves
    (P := fun q => q.1.current.perfState = w.tls.current.perfState) ?_ ?_ ?_ rfl h
  · intro t v ht
    simpa using ht
  · intro t v ht
    simpa using ht
  · intro id d a b c s s' hs hcall
    exact (congrArg Prod.snd (onSample_sampling hcall)).trans hs

/-! ### Runs

A thread may be entered anew before a callback has ended, so the callbacks that are active are
a stack of the statements that are left. -/

/-- What happens on a thread between its start and its end: its callbacks, statement by
statement and perhaps nested, and signals; and what changes only the kernel's side of the
thread and the variables of the agent. -/
inductive ThreadStep where
  | move (m : Move)
  | outside (kernel : Kernel) (user : Variables)

namespace Activity

/-- One step. -/
def threadStep (env : AgentEnv) (mask : Nat) (c : Activity) : ThreadStep → Option Activity
  | .move m => c.move env mask m
  | .outside kernel user =>
    some { c with thread := { c.thread with kernel := kernel, user := user } }

/-- Several steps. -/
def threadSteps (env : AgentEnv) (mask : Nat) (steps : List ThreadStep) (c : Activity) :
    Option Activity :=
  steps.foldlM (threadStep env mask) c

/-- The thread has events, or a callback that is active will still set them up. -/
structure Armed (env : AgentEnv) (c : Activity) : Prop where
  suffix : ∀ stmts ∈ c.active, ∃ callback : Callback, stmts <:+ callback.body env
  events : c.thread.tls.current.perfState ≠ none ∨
    ∃ stmts ∈ c.active, ∃ answers, setupStmt env answers ∈ stmts

variable {env : AgentEnv} {mask : Nat} {c c' : Activity}

/-- What leaves the callbacks and the events as they are. -/
theorem Armed.congr (h : c.Armed env) (hactive : c'.active = c.active)
    (hevents : c'.thread.tls.current.perfState = c.thread.tls.current.perfState) :
    c'.Armed env := by
  refine ⟨hactive ▸ h.suffix, ?_⟩
  rw [hactive, hevents]
  exact h.events

/-- A statement of the innermost callback. -/
theorem Armed.run (htested : ¬Untested env.profiler.clientName) (h : c.Armed env)
    {stmt : Stmt} {rest : List Stmt} {active : List (List Stmt)}
    (hactive : c.active = (stmt :: rest) :: active) (hactive' : c'.active = rest :: active)
    (hstmt : stmt c.thread = .ok c'.thread) : c'.Armed env := by
  obtain ⟨callback, hsuffix⟩ := h.suffix (stmt :: rest) (hactive ▸ List.mem_cons_self)
  refine ⟨fun stmts hmem => ?_, ?_⟩
  · rw [hactive'] at hmem
    rcases List.mem_cons.mp hmem with rfl | hmem
    · exact ⟨callback, (List.suffix_cons stmt _).trans hsuffix⟩
    · exact h.suffix stmts (hactive ▸ List.mem_cons_of_mem _ hmem)
  · -- a pending set-up is in the rest of the callback or in one further out
    have hpending : (∃ answers, stmt = setupStmt env answers) ∨
        c.thread.tls.current.perfState ≠ none ∨
        ∃ stmts ∈ c'.active, ∃ answers, setupStmt env answers ∈ stmts := by
      rcases h.events with hevents | ⟨stmts, hmem, answers, hsetup⟩
      · exact .inr (.inl hevents)
      · rw [hactive] at hmem
        rcases List.mem_cons.mp hmem with rfl | hmem
        · rcases List.mem_cons.mp hsetup with heq | hsetup
          · exact .inl ⟨answers, heq.symm⟩
          · exact .inr (.inr ⟨rest, hactive' ▸ List.mem_cons_self, answers, hsetup⟩)
        · exact .inr (.inr ⟨stmts, hactive' ▸ List.mem_cons_of_mem _ hmem, answers, hsetup⟩)
    rcases stmt_cases hsuffix with ⟨answers, rfl⟩ | ⟨answers, hrest⟩ | rfl | hkeeps
    · exact .inl (setupStmt_events hstmt)
    · exact .inr ⟨rest, hactive' ▸ List.mem_cons_self, answers, hrest⟩
    · rcases hpending with ⟨answers, heq⟩ | hevents | hpending
      · rw [heq] at hstmt
        exact .inl (setupStmt_events hstmt)
      · exact absurd (deallocStmt_events htested hstmt) hevents
      · exact .inr hpending
    · rcases hpending with ⟨answers, rfl⟩ | hevents | hpending
      · exact .inl (setupStmt_events hstmt)
      · exact .inl (hkeeps _ _ hstmt ▸ hevents)
      · exact .inr hpending

/-- What a step preserves. -/
theorem Armed.step (htested : ¬Untested env.profiler.clientName) (h : c.Armed env)
    {step : ThreadStep} (hstep : c.threadStep env mask step = some c') : c'.Armed env := by
  cases step with
  | outside kernel user =>
      cases hstep
      exact h.congr rfl rfl
  | move m =>
      cases m with
      | enter callback =>
          cases hstep
          refine ⟨?_, ?_⟩
          · intro stmts hmem
            rcases List.mem_cons.mp hmem with rfl | hmem
            · exact ⟨callback, List.suffix_rfl⟩
            · exact h.suffix stmts hmem
          · rcases h.events with hevents | ⟨stmts, hmem, hsetup⟩
            · refine .inl ?_
              rwa [blockSample, Tls.current_update]
            · exact .inr ⟨stmts, List.mem_cons_of_mem _ hmem, hsetup⟩
      | run =>
          have hmove : c.move env mask .run = some c' := hstep
          obtain ⟨stmt, rest, active, hactive, hactive', hstmt⟩ := move_run hmove
          exact h.run htested hactive hactive' hstmt
      | leave =>
          -- a callback that has ended has no set-up left in it
          have hmove : c.move env mask .leave = some c' := hstep
          obtain ⟨hactive, hthread⟩ := move_leave hmove
          refine ⟨fun stmts hmem => h.suffix stmts (hactive ▸ List.mem_cons_of_mem _ hmem), ?_⟩
          rcases h.events with hevents | ⟨stmts, hmem, answers, hsetup⟩
          · refine .inl ?_
            rwa [hthread, unblockSample, Tls.current_update]
          · rw [hactive] at hmem
            rcases List.mem_cons.mp hmem with rfl | hmem
            · cases hsetup
            · exact .inr ⟨stmts, hmem, answers, hsetup⟩
      | signal fuel siginfo =>
          obtain ⟨hactive, hhandler⟩ := move_signal hstep
          exact h.congr hactive (perfEventHandler_events hhandler)

/-- What a run preserves. -/
theorem Armed.steps (htested : ¬Untested env.profiler.clientName) {steps : List ThreadStep}
    (h : c.Armed env) (hsteps : c.threadSteps env mask steps = some c') : c'.Armed env := by
  induction steps generalizing c with
  | nil =>
      cases hsteps
      exact h
  | cons step steps ih =>
      rw [threadSteps, List.foldlM_cons] at hsteps
      obtain ⟨c₁, hstep, hsteps⟩ := Option.bind_eq_some_iff.mp hsteps
      exact ih (h.step htested hstep) hsteps

end Activity

/-- Statements and one more at the end. -/
theorem runStmts_concat {stmts : List Stmt} {stmt : Stmt} {w w' : AgentThread} :
    runStmts (stmts ++ [stmt]) w = .ok w' ↔ ∃ w₁, runStmts stmts w = .ok w₁ ∧ stmt w₁ = .ok w' := by
  simp only [runStmts, List.foldlM_append, List.foldlM_cons, List.foldlM_nil, bind_pure]
  exact bind_eq_ok

/-- `callbackThreadStart` gives the thread events. -/
theorem threadStart_events {env : AgentEnv} {answers : Nat → Fin 8 → SetupAnswers}
    {w w' : AgentThread} (h : runCallback env (.threadStart answers) w = .ok w') :
    w'.tls.current.perfState ≠ none := by
  obtain ⟨w₁, hbody, h⟩ := bind_eq_ok.mp h
  cases h
  rw [threadStart_body] at hbody
  obtain ⟨w₂, -, hsetup⟩ := runStmts_concat.mp hbody
  rw [unblockSample, Tls.current_update]
  exact setupStmt_events hsetup

/-- **The end of a thread.** After the start of a thread and whatever callbacks and samples come
then, the assertions of `thread_data_dealloc` hold when the thread ends exactly if the client
is one of the three whose events are not tested. -/
theorem threadEnd_iff {env : AgentEnv} {mask : Nat} {answers : Nat → Fin 8 → SetupAnswers}
    {w₀ w₁ : AgentThread} {steps : List ThreadStep} {c : Activity}
    (hstart : runCallback env (.threadStart answers) w₀ = .ok w₁)
    (hsteps : Activity.threadSteps env mask steps ⟨[], w₁⟩ = some c) (hidle : c.active = []) :
    (∃ w', runCallback env .threadEnd c.thread = .ok w') ↔ Untested env.profiler.clientName := by
  refine ⟨fun ⟨w', hend⟩ => ?_, fun h => threadEnd_untested h c.thread⟩
  by_contra htested
  have hstarted : Activity.Armed env ⟨[], w₁⟩ :=
    ⟨fun stmts hmem => (by cases hmem), .inl (threadStart_events hstart)⟩
  have harmed := hstarted.steps htested hsteps
  have hevents : c.thread.tls.current.perfState ≠ none := by
    rcases harmed.events with hevents | ⟨stmts, hmem, -⟩
    · exact hevents
    · rw [hidle] at hmem
      cases hmem
  rw [threadEnd_tested htested hevents] at hend
  cases hend

/-- A new thread that is started with one event, whose system calls succeed. -/
theorem exists_started (profiler : ProfilerEnv) :
    ∃ w₁, runCallback ⟨profiler, [cycles]⟩ (.threadStart plainAnswers) (newThread 7) = .ok w₁ := by
  have hinit : ∃ w,
      runStmts (((Callback.threadStart plainAnswers).body ⟨profiler, [cycles]⟩).dropLast)
        (blockSample (newThread 7)) = .ok w ∧ w.tls.current.perfState = none := ⟨_, rfl, rfl⟩
  obtain ⟨w, hinit, hnone⟩ := hinit
  obtain ⟨w₂, hsetup, -⟩ := setupEvents_succeeds (plainAnswers_succeed [cycles].length) hnone
  refine ⟨unblockSample w₂, ?_⟩
  have hbody : runStmts ((Callback.threadStart plainAnswers).body ⟨profiler, [cycles]⟩)
      (blockSample (newThread 7)) = .ok w₂ := by
    rw [threadStart_body]
    refine runStmts_concat.mpr ⟨w, hinit, ?_⟩
    rw [setupStmt, hsetup]
    rfl
  rw [runCallback, hbody]
  rfl

/-- A thread of the generic client, with a callback and a signal in it between its start and
its end. -/
theorem threadEnd_iff_generic :
    ∃ w₁ c, runCallback ⟨genericEnv, [cycles]⟩ (.threadStart plainAnswers) (newThread 7) = .ok w₁ ∧
      Activity.threadSteps ⟨genericEnv, [cycles]⟩ 4095
        [.move (.enter .gcStart), .move (.signal 0 ⟨0, 3⟩), .move .leave] ⟨[], w₁⟩ = some c ∧
      ∃ w', runCallback ⟨genericEnv, [cycles]⟩ .threadEnd c.thread = .ok w' := by
  obtain ⟨w₁, hstart⟩ := exists_started genericEnv
  obtain ⟨tls, -, hsignal⟩ := perfEventHandler_refused (w := blockSample w₁) 4095
    (some (onSample genericEnv)) 0 ⟨0, 3⟩ (by rw [blockSample, Tls.current_update])
  have hsteps : Activity.threadSteps ⟨genericEnv, [cycles]⟩ 4095
      [.move (.enter .gcStart), .move (.signal 0 ⟨0, 3⟩), .move .leave] ⟨[], w₁⟩ =
        some ⟨[], unblockSample { blockSample w₁ with tls := tls }⟩ := by
    simp [Activity.threadSteps, Activity.threadStep, Activity.move, Callback.body, hsignal]
  exact ⟨w₁, _, hstart, hsteps, (threadEnd_iff hstart hsteps rfl).mpr (.inl rfl)⟩

/-- With the client for data-centric profiles a thread cannot end right after its start. -/
theorem threadEnd_fails_dataCentric :
    ∃ w₁, runCallback ⟨{ genericEnv with clientName := dataCentric }, [cycles]⟩
        (.threadStart plainAnswers) (newThread 7) = .ok w₁ ∧
      runCallback ⟨{ genericEnv with clientName := dataCentric }, [cycles]⟩ .threadEnd w₁ =
        .error .assertion := by
  obtain ⟨w₁, hstart⟩ := exists_started { genericEnv with clientName := dataCentric }
  exact ⟨w₁, hstart, threadEnd_tested (by unfold Untested; decide) (threadStart_events hstart)⟩

end DroidPerf
