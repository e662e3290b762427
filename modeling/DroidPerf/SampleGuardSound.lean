import DroidPerf.Agent
import DroidPerf.PerfHandlerSound

/-!
# DroidPerf.SampleGuardSound

When samples are blocked inside the agent's callbacks.

A thread runs callbacks statement by statement, may enter one callback while another is active,
and may be hit by a signal at any point. `UNBLOCK_SAMPLE` clears the flag whatever it was
before, `thread_data_alloc` replaces the record that holds it and `thread_data_dealloc` deletes
that record. So samples are blocked throughout exactly in the runs that neither nest callbacks
nor start or end a thread (`alwaysGuarded_iff`).

One direction is an invariant: a run without nesting stays `Quiet`, that is, at most one
callback is active and what is left of it keeps the flag (`Quiet.move`). For the other, two
things that clear the flag under an active callback are shown to be inevitable in a run that
comes to its end, the return of a nested callback (`not_alwaysGuarded_of_nested`) and a
statement that is still to be run (`not_alwaysGuarded_of_clears`).
-/

namespace DroidPerf

/-- A thread together with the callbacks that are active on it: what each of them has
still to run, the innermost first. -/
structure Activity where
  active : List (List Stmt)
  thread : AgentThread

/-- What can happen next on a thread. -/
inductive Move where
  /-- The VM calls the agent, which blocks samples. -/
  | enter (callback : Callback)
  /-- The innermost callback runs its next statement. -/
  | run
  /-- The innermost callback is through and unblocks samples. -/
  | leave
  /-- A signal is delivered. -/
  | signal (fuel : Nat) (siginfo : SigInfo)

namespace Activity

/-- One move; `none` when it is not possible or does not return. -/
def move (env : AgentEnv) (mask : Nat) (c : Activity) : Move → Option Activity
  | .enter callback => some ⟨callback.body env :: c.active, blockSample c.thread⟩
  | .run =>
    match c.active with
    | (stmt :: stmts) :: active =>
      match stmt c.thread with
      | .ok w => some ⟨stmts :: active, w⟩
      | .error _ => none
    | _ => none
  | .leave =>
    match c.active with
    | [] :: active => some ⟨active, unblockSample c.thread⟩
    | _ => none
  | .signal fuel siginfo =>
    match perfEventHandler mask (some (onSample env.profiler)) fuel siginfo c.thread with
    | .ok w => some ⟨c.active, w⟩
    | .error _ => none

/-- The flag is set and refuses a signal while a callback is active. -/
def Guarded (c : Activity) : Prop :=
  c.active ≠ [] →
    c.thread.tls.current.insideAgent = true ∧ (profilerSafeEnter c.thread.tls).1 = false

/-- Samples are blocked in every state of the run. -/
def AlwaysGuarded (env : AgentEnv) (mask : Nat) (c : Activity) : List Move → Prop
  | [] => c.Guarded
  | m :: moves => c.Guarded ∧ ∀ c', c.move env mask m = some c' → c'.AlwaysGuarded env mask moves

/-- The run is well nested: each move is possible and no callback is active at its end. -/
def Completes (env : AgentEnv) (mask : Nat) (c : Activity) : List Move → Prop
  | [] => c.active = []
  | m :: moves => ∃ c', c.move env mask m = some c' ∧ c'.Completes env mask moves

end Activity

/-- Whether a callback keeps the thread's record. -/
def Callback.keepsRecord : Callback → Bool
  | .threadStart _ => false
  | .threadEnd => false
  | _ => true

/-- Callbacks are entered only while none is active, and keep the thread's record. -/
def OneAtATime (inside : Bool) : List Move → Prop
  | [] => True
  | .enter callback :: moves =>
    inside = false ∧ callback.keepsRecord = true ∧ OneAtATime true moves
  | .leave :: moves => OneAtATime false moves
  | .run :: moves => OneAtATime inside moves
  | .signal _ _ :: moves => OneAtATime inside moves

/-! ### Statements and the flag

The statements of the callbacks fall into two kinds. Those that write to the streams keep the
flag; allocating and deleting the record clear it, since a new record starts with it clear. -/

/-- A statement that leaves the flag set. -/
def KeepsFlag (stmt : Stmt) : Prop :=
  ∀ w w', stmt w = .ok w' → w.tls.current.insideAgent = true → w'.tls.current.insideAgent = true

/-- A statement that leaves the flag clear. -/
def ClearsFlag (stmt : Stmt) : Prop :=
  ∀ w w', stmt w = .ok w' → w'.tls.current.insideAgent = false

/-- A statement of `ObjectAllocCallback` changes at most the stream of allocations. -/
theorem objectAlloc_tls {a : AllocArgs} {stmt : Stmt} (hstmt : stmt ∈ objectAlloc a)
    {w w' : AgentThread} (h : stmt w = .ok w') :
    w'.tls = w.tls ∨ ∃ o, w'.tls = w.tls.update fun td => { td with outputStateAlloc := o } := by
  simp only [objectAlloc, List.mem_cons, List.not_mem_nil, or_false] at hstmt
  rcases hstmt with rfl | rfl | rfl
  · cases h
    exact .inl rfl
  · cases h
    exact .inl rfl
  · dsimp only at h
    split at h
    · obtain ⟨q, -, h⟩ := bind_eq_ok.mp h
      cases h
      exact .inr ⟨_, rfl⟩
    · cases h
      exact .inl rfl

/-- A statement of `MethodEntry` changes at most the stream of methods. -/
theorem methodEntry_tls {stackTrace : Option (List Frame)} {stmt : Stmt}
    (hstmt : stmt ∈ methodEntry stackTrace) {w w' : AgentThread} (h : stmt w = .ok w') :
    w'.tls = w.tls ∨ ∃ o, w'.tls = w.tls.update fun td => { td with outputState := o } := by
  simp only [methodEntry, List.mem_cons, List.not_mem_nil, or_false] at hstmt
  rcases hstmt with rfl | rfl
  · cases h
    exact .inl rfl
  · dsimp only at h
    split at h
    · obtain ⟨q, -, h⟩ := bind_eq_ok.mp h
      cases h
      exact .inr ⟨_, rfl⟩
    · cases h
      exact .inl rfl

/-- No statement of `ObjectAllocCallback` clears the flag. -/
theorem objectAlloc_keepsFlag (a : AllocArgs) : ∀ stmt ∈ objectAlloc a, KeepsFlag stmt := by
  intro stmt hstmt w w' h hin
  rcases objectAlloc_tls hstmt h with htls | ⟨o, htls⟩
  · rw [htls]
    exact hin
  · rw [htls, Tls.current_update]
    exact hin

/-- No statement of `MethodEntry` clears the flag. -/
theorem methodEntry_keepsFlag (stackTrace : Option (List Frame)) :
    ∀ stmt ∈ methodEntry stackTrace, KeepsFlag stmt := by
  intro stmt hstmt w w' h hin
  rcases methodEntry_tls hstmt h with htls | ⟨o, htls⟩
  · rw [htls]
    exact hin
  · rw [htls, Tls.current_update]
    exact hin

/-- The callbacks that keep the thread's record keep the flag. -/
theorem body_keepsFlag {env : AgentEnv} {callback : Callback} (h : callback.keepsRecord = true) :
    ∀ stmt ∈ callback.body env, KeepsFlag stmt := by
  cases callback with
  | threadStart answers => cases h
  | threadEnd => cases h
  | objectAlloc args => exact objectAlloc_keepsFlag args
  | methodEntry stackTrace => exact methodEntry_keepsFlag stackTrace
  | vmDeath | gcStart | gcEnd | classLoad | classPrepare =>
      intro stmt hstmt
      cases hstmt

/-- `thread_data_alloc` puts a record with a clear flag into the slot. -/
theorem threadDataAlloc_clearsFlag :
    ClearsFlag fun w => .ok { w with tls := threadDataAlloc w.tls } := by
  intro w w' h
  cases h
  show (threadDataAlloc w.tls).current.insideAgent = false
  rw [current_threadDataAlloc]
  rfl

/-- `thread_data_dealloc` empties the slot, unless an assertion fails. -/
theorem threadDataDealloc_eq {clientName : String} {t t' : AgentTls}
    (h : threadDataDealloc clientName t = .ok t') : t' = { t with slot := none } := by
  unfold threadDataDealloc at h
  split at h
  · rename_i hslot
    cases h
    rw [← hslot]
  · rename_i td hslot
    -- the assertions that both branches end with
    have hrest : (do
        assert td.contextState.isNone
        assert td.outputState.isNone
        assert ((List.finRange 4).all fun i => (td.ctxtSampleState i).isNone)
        return { t with slot := none }) = Except.ok t' := by
      dsimp only at h
      split at h
      · obtain ⟨-, -, h⟩ := bind_eq_ok.mp h
        exact h
      · exact h
    obtain ⟨-, -, hrest⟩ := bind_eq_ok.mp hrest
    obtain ⟨-, -, hrest⟩ := bind_eq_ok.mp hrest
    obtain ⟨-, -, hrest⟩ := bind_eq_ok.mp hrest
    cases hrest
    rfl

/-- After `thread_data_dealloc` the next access makes a record with a clear flag. -/
theorem threadDataDealloc_clearsFlag (clientName : String) :
    ClearsFlag fun w => (threadDataDealloc clientName w.tls).map fun tls => { w with tls := tls } := by
  intro w w' h
  obtain ⟨tls, hdealloc, rfl⟩ := map_eq_ok.mp h
  rw [threadDataDealloc_eq hdealloc]
  rfl

/-- The two other callbacks have a statement that clears the flag. -/
theorem body_clearsFlag (env : AgentEnv) {callback : Callback}
    (h : callback.keepsRecord = false) : ∃ stmt ∈ callback.body env, ClearsFlag stmt := by
  cases callback with
  | threadStart answers =>
      exact ⟨_, List.mem_cons_of_mem _ List.mem_cons_self, threadDataAlloc_clearsFlag⟩
  | threadEnd =>
      refine ⟨_, ?_, threadDataDealloc_clearsFlag env.profiler.clientName⟩
      simp [Callback.body, threadEnd]
  | vmDeath | gcStart | gcEnd | classLoad | classPrepare | objectAlloc args
  | methodEntry stackTrace => cases h

/-! ### Runs

What each kind of move does is stated first. A run is a list of moves; the inductions below go
over that list with the state generalized. -/

namespace Activity

variable {env : AgentEnv} {mask : Nat} {c c' : Activity}

/-- A run that is guarded throughout is guarded at its start. -/
theorem AlwaysGuarded.head {moves : List Move} (h : c.AlwaysGuarded env mask moves) :
    c.Guarded := by
  cases moves with
  | nil => exact h
  | cons m moves => exact h.1

/-- An active callback and a clear flag are what must not be. -/
theorem not_guarded (hactive : c.active ≠ []) (hin : c.thread.tls.current.insideAgent = false) :
    ¬ c.Guarded := by
  intro hguarded
  exact absurd ((hguarded hactive).1.symm.trans hin) (by decide)

/-- While the flag is set all is well. -/
theorem guarded_of_insideAgent (hin : c.thread.tls.current.insideAgent = true) : c.Guarded :=
  fun _ => ⟨hin, by rw [profilerSafeEnter_fst, hin]; rfl⟩

/-- What a run of the next statement does. -/
theorem move_run (h : c.move env mask .run = some c') :
    ∃ stmt stmts active, c.active = (stmt :: stmts) :: active ∧ c'.active = stmts :: active ∧
      stmt c.thread = .ok c'.thread := by
  unfold move at h
  dsimp only at h
  split at h
  · rename_i stmt stmts active hactive
    split at h
    · rename_i w hstmt
      cases h
      exact ⟨stmt, stmts, active, hactive, rfl, hstmt⟩
    · cases h
  · cases h

/-- What leaving a callback does. -/
theorem move_leave (h : c.move env mask .leave = some c') :
    c.active = [] :: c'.active ∧ c'.thread = unblockSample c.thread := by
  unfold move at h
  dsimp only at h
  split at h
  · rename_i active hactive
    cases h
    exact ⟨hactive, rfl⟩
  · cases h

/-- What a signal does: the handler runs, and the callbacks stay where they are. -/
theorem move_signal {fuel : Nat} {siginfo : SigInfo}
    (h : c.move env mask (.signal fuel siginfo) = some c') :
    c'.active = c.active ∧ perfEventHandler mask (some (onSample env.profiler)) fuel siginfo
      c.thread = .ok c'.thread := by
  unfold move at h
  dsimp only at h
  split at h
  · rename_i w hw
    cases h
    exact ⟨rfl, hw⟩
  · cases h

/-- Once callbacks are nested, leaving the inner one clears the flag for the outer one. The run
comes to its end, so that return is among its moves. -/
theorem not_alwaysGuarded_of_nested {moves : List Move} (hnested : 2 ≤ c.active.length)
    (hrun : c.Completes env mask moves) : ¬ c.AlwaysGuarded env mask moves := by
  induction moves generalizing c with
  | nil =>
      rw [show c.active = [] from hrun] at hnested
      exact absurd hnested (by decide)
  | cons m moves ih =>
      intro hguarded
      obtain ⟨-, hall⟩ := hguarded
      obtain ⟨c', hmove, hrun⟩ := hrun
      replace hall := hall c' hmove
      cases m with
      | enter callback =>
          cases hmove
          refine ih ?_ hrun hall
          simp only [List.length_cons]
          omega
      | run =>
          obtain ⟨stmt, stmts, active, hc, hc', -⟩ := move_run hmove
          rw [hc, List.length_cons] at hnested
          exact ih (by rw [hc', List.length_cons]; exact hnested) hrun hall
      | leave =>
          obtain ⟨hc, hthread⟩ := move_leave hmove
          -- one callback less, and the flag is clear
          rw [hc, List.length_cons] at hnested
          refine not_guarded ?_ ?_ hall.head
          · intro hnil
            rw [hnil] at hnested
            exact absurd hnested (by decide)
          · rw [hthread]
            show (c.thread.tls.update fun td => { td with insideAgent := false }).current.insideAgent
              = false
            rw [Tls.current_update]
      | signal fuel siginfo =>
          obtain ⟨hc, -⟩ := move_signal hmove
          exact ih (hc ▸ hnested) hrun hall

/-- A statement that clears the flag is run before its callback ends. -/
theorem not_alwaysGuarded_of_clears {moves : List Move}
    (hclears : ∃ stmts ∈ c.active, ∃ stmt ∈ stmts, ClearsFlag stmt)
    (hrun : c.Completes env mask moves) : ¬ c.AlwaysGuarded env mask moves := by
  induction moves generalizing c with
  | nil =>
      obtain ⟨stmts, hmem, -⟩ := hclears
      rw [show c.active = [] from hrun] at hmem
      cases hmem
  | cons m moves ih =>
      intro hguarded
      obtain ⟨-, hall⟩ := hguarded
      obtain ⟨c', hmove, hrun⟩ := hrun
      replace hall := hall c' hmove
      obtain ⟨stmts, hmem, stmt, hstmt, hclear⟩ := hclears
      cases m with
      | enter callback =>
          cases hmove
          exact ih ⟨stmts, List.mem_cons_of_mem _ hmem, stmt, hstmt, hclear⟩ hrun hall
      | run =>
          obtain ⟨next, rest, active, hc, hc', hnext⟩ := move_run hmove
          rw [hc] at hmem
          rcases List.mem_cons.mp hmem with rfl | hmem
          · rcases List.mem_cons.mp hstmt with rfl | hstmt
            · -- the statement itself: its callback is still active
              exact not_guarded (hc' ▸ List.cons_ne_nil _ _) (hclear _ _ hnext) hall.head
            · exact ih ⟨rest, hc' ▸ List.mem_cons_self, stmt, hstmt, hclear⟩ hrun hall
          · exact ih ⟨stmts, hc' ▸ List.mem_cons_of_mem _ hmem, stmt, hstmt, hclear⟩ hrun hall
      | leave =>
          obtain ⟨hc, -⟩ := move_leave hmove
          rw [hc] at hmem
          rcases List.mem_cons.mp hmem with rfl | hmem
          · cases hstmt
          · exact ih ⟨stmts, hmem, stmt, hstmt, hclear⟩ hrun hall
      | signal fuel siginfo =>
          obtain ⟨hc, -⟩ := move_signal hmove
          exact ih ⟨stmts, hc ▸ hmem, stmt, hstmt, hclear⟩ hrun hall

/-- A run that comes to its end and is guarded throughout nests no callbacks and keeps the
record. -/
theorem oneAtATime_of_alwaysGuarded {moves : List Move} (hc : c.active.length ≤ 1)
    (hrun : c.Completes env mask moves) (hall : c.AlwaysGuarded env mask moves) :
    OneAtATime (decide (c.active ≠ [])) moves := by
  induction moves generalizing c with
  | nil => trivial
  | cons m moves ih =>
      obtain ⟨c', hmove, hrun⟩ := hrun
      replace hall := hall.2 c' hmove
      cases m with
      | enter callback =>
          cases hmove
          have hout : c.active = [] := by
            by_contra hin
            have hpos := List.length_pos_iff.mpr hin
            refine not_alwaysGuarded_of_nested ?_ hrun hall
            rw [List.length_cons]
            omega
          refine ⟨by simp [hout], ?_, ?_⟩
          · by_contra hkeeps
            obtain ⟨stmt, hstmt, hclear⟩ :=
              body_clearsFlag env (Bool.not_eq_true _ ▸ hkeeps)
            exact not_alwaysGuarded_of_clears
              ⟨_, List.mem_cons_self, stmt, hstmt, hclear⟩ hrun hall
          · simpa using ih (by simp [hout]) hrun hall
      | run =>
          obtain ⟨stmt, stmts, active, hcur, hnext, -⟩ := move_run hmove
          have hrest := ih (by simpa [hcur, hnext] using hc) hrun hall
          simpa [OneAtATime, hcur, hnext] using hrest
      | leave =>
          obtain ⟨hcur, -⟩ := move_leave hmove
          rw [hcur, List.length_cons] at hc
          have hnext : c'.active = [] := List.length_eq_zero_iff.mp (by omega)
          simpa [OneAtATime, hnext] using ih (by simp [hnext]) hrun hall
      | signal fuel siginfo =>
          obtain ⟨hcur, -⟩ := move_signal hmove
          have hrest := ih (by rw [hcur]; exact hc) hrun hall
          simpa [OneAtATime, hcur] using hrest

/-- At most one callback is active, with the flag set and only statements left that keep
it set. -/
def Quiet (c : Activity) : Prop :=
  c.active = [] ∨
    ∃ stmts, c.active = [stmts] ∧ c.thread.tls.current.insideAgent = true ∧
      ∀ stmt ∈ stmts, KeepsFlag stmt

/-- Quiet states are guarded. -/
theorem Quiet.guarded (h : c.Quiet) : c.Guarded := by
  rcases h with hout | ⟨stmts, -, hin, -⟩
  · exact fun hactive => absurd hout hactive
  · exact guarded_of_insideAgent hin

/-- A move of a run without nesting keeps the state quiet. -/
theorem Quiet.move {m : Move} {moves : List Move} (h : c.Quiet)
    (hone : OneAtATime (decide (c.active ≠ [])) (m :: moves))
    (hmove : c.move env mask m = some c') :
    c'.Quiet ∧ OneAtATime (decide (c'.active ≠ [])) moves := by
  cases m with
  | enter callback =>
      obtain ⟨hout, hkeeps, hone⟩ := hone
      have hout : c.active = [] := by simpa using hout
      cases hmove
      have hblocked : (blockSample c.thread).tls.current.insideAgent = true := by
        show (c.thread.tls.update fun td => { td with insideAgent := true }).current.insideAgent
          = true
        rw [Tls.current_update]
      exact ⟨.inr ⟨_, by rw [hout], hblocked, body_keepsFlag hkeeps⟩, by simpa using hone⟩
  | run =>
      obtain ⟨stmt, rest, active, hcur, hnext, hstmt⟩ := move_run hmove
      rcases h with hout | ⟨stmts, hin, hflag, hkeeps⟩
      · rw [hout] at hcur
        cases hcur
      · rw [hin] at hcur
        cases hcur
        refine ⟨.inr ⟨rest, hnext, ?_, ?_⟩, ?_⟩
        · exact hkeeps stmt List.mem_cons_self _ _ hstmt hflag
        · exact fun stmt hmem => hkeeps stmt (List.mem_cons_of_mem _ hmem)
        · simpa [OneAtATime, hin, hnext] using hone
  | leave =>
      obtain ⟨hcur, -⟩ := move_leave hmove
      rcases h with hout | ⟨stmts, hin, -, -⟩
      · rw [hout] at hcur
        cases hcur
      · rw [hin] at hcur
        have hnext : c'.active = [] := (List.cons.inj hcur).2.symm
        exact ⟨.inl hnext, by simpa [OneAtATime, hnext] using hone⟩
  | signal fuel siginfo =>
      obtain ⟨hcur, hhandler⟩ := move_signal hmove
      -- the flag is set, so the handler leaves at once and changes nothing that matters
      have hone : OneAtATime (decide (c'.active ≠ [])) moves := by
        rw [hcur]
        exact hone
      refine ⟨?_, hone⟩
      rcases h with hout | ⟨stmts, hin, hflag, hkeeps⟩
      · exact .inl (hcur.trans hout)
      · obtain ⟨tls, htls, hrefused⟩ := perfEventHandler_refused mask
          (some (onSample env.profiler)) fuel siginfo hflag
        rw [hrefused] at hhandler
        have hthread := Except.ok.inj hhandler
        refine .inr ⟨stmts, hcur.trans hin, ?_, hkeeps⟩
        rw [← hthread]
        exact (congrArg Prod.fst htls).trans hflag

/-- From a quiet state a run without nesting is guarded throughout. -/
theorem Quiet.alwaysGuarded {moves : List Move} (h : c.Quiet)
    (hone : OneAtATime (decide (c.active ≠ [])) moves) : c.AlwaysGuarded env mask moves := by
  induction moves generalizing c with
  | nil => exact h.guarded
  | cons m moves ih =>
      refine ⟨h.guarded, fun c' hmove => ?_⟩
      obtain ⟨hquiet, hrest⟩ := h.move hone hmove
      exact ih hquiet hrest

end Activity

/-- **Samples are blocked inside callbacks.** In every well-nested run, with signals at any
points, samples are blocked between each `BLOCK_SAMPLE` and its `UNBLOCK_SAMPLE` exactly when
no callback is entered while another is active and none starts or ends the thread. -/
theorem alwaysGuarded_iff (env : AgentEnv) (mask : Nat) (w : AgentThread) (moves : List Move)
    (hrun : (Activity.mk [] w).Completes env mask moves) :
    (Activity.mk [] w).AlwaysGuarded env mask moves ↔ OneAtATime false moves := by
  have hquiet : (Activity.mk [] w).Quiet := .inl rfl
  constructor
  · exact Activity.oneAtATime_of_alwaysGuarded (Nat.zero_le _) hrun
  · exact hquiet.alwaysGuarded

/-- `MethodEntry` alone, hit by a signal. -/
theorem alwaysGuarded_methodEntry :
    (Activity.mk [] (newThread 7)).AlwaysGuarded ⟨genericEnv, []⟩ 4095
      [.enter (.methodEntry none), .run, .signal 0 ⟨0, 3⟩, .run, .leave] := by
  refine (alwaysGuarded_iff _ _ _ _ ?_).mpr ⟨rfl, rfl, trivial⟩
  exact ⟨_, rfl, _, rfl, _, rfl, _, rfl, _, rfl, rfl⟩

/-- The call of `Class.getName` in `ObjectAllocCallback` enters `MethodEntry`. -/
def nestedMethodEntry (a : AllocArgs) : List Move :=
  [.enter (.objectAlloc a), .run, .run, .enter (.methodEntry none), .run, .run, .leave, .run, .leave]

/-- After the nested `MethodEntry` the rest of `ObjectAllocCallback` can be sampled. -/
theorem nested_methodEntry_not_guarded :
    (Activity.mk [] startedThread).Completes ⟨genericEnv, []⟩ 4095
        (nestedMethodEntry ⟨1, 32, 3, "La/B;".toList, 0, none⟩) ∧
      ¬ (Activity.mk [] startedThread).AlwaysGuarded ⟨genericEnv, []⟩ 4095
        (nestedMethodEntry ⟨1, 32, 3, "La/B;".toList, 0, none⟩) := by
  have hrun : (Activity.mk [] startedThread).Completes ⟨genericEnv, []⟩ 4095
      (nestedMethodEntry ⟨1, 32, 3, "La/B;".toList, 0, none⟩) :=
    ⟨_, rfl, _, rfl, _, rfl, _, rfl, _, rfl, _, rfl, _, rfl, _, rfl, _, rfl, rfl⟩
  refine ⟨hrun, fun hall => ?_⟩
  have hone := Activity.oneAtATime_of_alwaysGuarded (Nat.zero_le _) hrun hall
  exact absurd hone.2.2.1 (by decide)

end DroidPerf
