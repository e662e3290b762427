import DroidPerf.Profiler

/-!
# DroidPerf.PerfHandlerSound

What a signal does to later sampling: whether the handler leaves the guard `inside_agent` and
the thread's counters as it must.

Of the handler's exits, the one taken by a thread without an event list returns with the guard
still set, after which every signal on the thread is refused. On all the others the guard is
cleared and every counter of the list enabled (`perfEventHandler_some`).

What the callback does is kept out of the argument by `Tls.sampling`, the two fields that
decide about sampling: neither `constructContext` nor a drain changes them, whatever the ring
holds. The handler is then one lemma for each of three starting states (refused, no list, a
list), and `keepsSampling_iff` is an induction over the events with those three.
-/

namespace DroidPerf

/-! ### Requests on counters

The loops over the descriptors stop at the first failure. What enabling has done to a
descriptor is not undone by what the loop does later. -/

/-- Every valid descriptor of the list is an enabled counter. -/
def AllEnabled (k : Kernel) (eventThreadList : List PerfEventThread) : Prop :=
  ∀ fd ∈ eventThreadList.flatMap PerfEventThread.fds, 0 ≤ fd → k.counters fd = some true

/-- A request that succeeds was for an open counter, and changes that one only. -/
theorem ioctl_eq_some {k k' : Kernel} {fd : Int} {request : IoctlRequest}
    (h : ioctl k fd request = some k') :
    ∃ on, k.counters fd = some on ∧
      k' = { k with counters := Function.update k.counters fd (some (request.apply on)) } := by
  obtain ⟨on, hon, rfl⟩ := Option.map_eq_some_iff.mp h
  exact ⟨on, hon, rfl⟩

/-- Enabling counters disables none. -/
theorem ioctlAll_enable_mono {fds : List Int} {k k' : Kernel} {b : Bool} {fd : Int}
    (h : ioctlAll .enable fds k = (b, k')) (hfd : k.counters fd = some true) :
    k'.counters fd = some true := by
  induction fds generalizing k with
  | nil => exact (Prod.mk.inj h).2 ▸ hfd
  | cons g fds ih =>
      rw [ioctlAll] at h
      split at h
      · exact ih h hfd
      · split at h
        · exact (Prod.mk.inj h).2 ▸ hfd
        · rename_i k₁ hio
          obtain ⟨on, -, rfl⟩ := ioctl_eq_some hio
          refine ih h ?_
          by_cases hg : fd = g
          · simp [hg, IoctlRequest.apply]
          · simp [Function.update_of_ne hg, hfd]

/-- If the loop went through, all valid descriptors count. -/
theorem ioctlAll_enable {fds : List Int} {k k' : Kernel} (h : ioctlAll .enable fds k = (true, k')) :
    ∀ fd ∈ fds, 0 ≤ fd → k'.counters fd = some true := by
  induction fds generalizing k with
  | nil => simp
  | cons g fds ih =>
      intro fd hmem hpos
      rw [ioctlAll] at h
      split at h
      · rename_i hneg
        -- a negative descriptor is left out by the loop
        rcases List.mem_cons.mp hmem with rfl | hmem
        · omega
        · exact ih h fd hmem hpos
      · split at h
        · cases h
        · rename_i k₁ hio
          rcases List.mem_cons.mp hmem with rfl | hmem
          · obtain ⟨on, -, rfl⟩ := ioctl_eq_some hio
            -- this one was enabled now, and what follows does not disable it
            exact ioctlAll_enable_mono h (by simp [IoctlRequest.apply])
          · exact ih h fd hmem hpos

/-! ### The callback's frame

The callback builds contexts, which lie in another field of the record. So a drain, which is a
sequence of calls of the callback, changes neither the guard nor the event list. -/

/-- The part of a thread's record that decides about sampling. -/
def Tls.sampling {π κ ω : Type} (t : Tls π κ ω) : Bool × Option π :=
  (t.current.insideAgent, t.current.perfState)

/-- Adding a call path to the context tree leaves guard and event list alone. -/
theorem constructContext_sampling {callpathVec : List (Nat × List Char)} {usage : Nat}
    {t t' : AgentTls} (h : constructContext callpathVec usage t = .ok t') :
    t'.sampling = t.sampling := by
  rw [constructContext] at h
  split at h
  · cases h
    simp [Tls.sampling]
  · obtain ⟨trace, -, h⟩ := bind_eq_ok.mp h
    obtain ⟨cachemiss, -, h⟩ := bind_eq_ok.mp h
    cases h
    rfl

/-- `OnSample` does nothing, or writes the thread's call path. -/
theorem onSample_cases {env : ProfilerEnv} {id : Nat} {d : PerfSampleData} {a b c : Int}
    {t : AgentTls} {v : Variables} {s' : AgentTls × Variables}
    (h : onSample env id d a b c (t, v) = .ok s') :
    s' = (t, v) ∨ ∃ t', constructContext v.locals.callpathVec v.globals.activeMemoryUsage t = .ok t' ∧
      s' = (t', v) := by
  simp only [onSample] at h
  split at h
  · cases h; exact .inl rfl
  split at h
  · cases h; exact .inl rfl
  split at h
  · cases h
  split at h
  · obtain ⟨t', ht', h⟩ := bind_eq_ok.mp h
    cases h
    exact .inr ⟨t', ht', rfl⟩
  · cases h; exact .inl rfl

/-- The callback leaves guard and event list alone. -/
theorem onSample_sampling {env : ProfilerEnv} {id : Nat} {d : PerfSampleData} {a b c : Int}
    {s s' : AgentTls × Variables} (h : onSample env id d a b c s = .ok s') :
    s'.1.sampling = s.1.sampling := by
  obtain ⟨t, v⟩ := s
  obtain rfl | ⟨t', ht', rfl⟩ := onSample_cases h
  · rfl
  · show t'.sampling = t.sampling
    exact constructContext_sampling ht'

/-- What the callback preserves, a drain preserves. -/
theorem drainLoop_preserves {σ : Type} {mask sampleType : Nat}
    {cb : PerfSampleData → σ → Except Fault σ} {P : σ → Prop}
    (hcb : ∀ d s s', P s → cb d s = .ok s' → P s') {fuel : Nat} {m m' : PerfMmap} {s s' : σ}
    (hs : P s) (h : drainLoop mask sampleType cb fuel m s = .ok (m', s')) : P s' := by
  induction fuel generalizing m s with
  | zero => cases h
  | succ fuel ih =>
      rw [drainLoop] at h
      split at h
      · split at h
        · cases h; exact hs
        · split at h
          · cases h
          · obtain ⟨⟨m₁, s₁⟩, hrec, hloop⟩ := bind_eq_ok.mp h
            refine ih ?_ hloop
            rw [drainRecord] at hrec
            split at hrec
            · -- a sample: the callback was called
              split at hrec
              · cases hrec
              · rename_i d m₂ _
                obtain ⟨s₂, hcall, hrec⟩ := map_eq_ok.mp hrec
                cases hrec
                exact hcb d s _ hs hcall
            · -- another record: skipped
              split at hrec <;> cases hrec <;> exact hs
      · cases h; exact hs

/-! ### One signal

The handler's way through its exits. The predicate `P` of `perfEventHandler_preserves` is
arbitrary, since other modules use it for the context tree and the streams. -/

section Signal

variable {env : ProfilerEnv} {mask fuel : Nat} {siginfo : SigInfo} {w w' : AgentThread}
  {eventThreadList : List PerfEventThread}

/-- What the callback preserves, draining an event's ring preserves. -/
theorem drainEvent_preserves {cb : SampleCb Unit Output Variables}
    {P : AgentTls × Variables → Prop}
    (hcb : ∀ id d a b c s s', P s → cb id d a b c s = .ok s' → P s') {current : PerfEventThread}
    (hw : P (w.tls, w.user)) (h : drainEvent mask (some cb) fuel current w = .ok w') :
    P (w'.tls, w'.user) := by
  rw [drainEvent] at h
  split at h
  · cases h
  · split at h
    · cases h
    · obtain ⟨⟨m, tls, user⟩, hloop, h⟩ := bind_eq_ok.mp h
      cases h
      exact drainLoop_preserves (fun d s s' => hcb _ d _ _ _ s s') hw hloop

/-- Draining a ring leaves guard and event list alone. -/
theorem drainEvent_sampling {current : PerfEventThread}
    (h : drainEvent mask (some (onSample env)) fuel current w = .ok w') :
    w'.tls.sampling = w.tls.sampling :=
  drainEvent_preserves (P := fun s => s.1.sampling = w.tls.sampling)
    (fun _ _ _ _ _ _ _ hs hcall => (onSample_sampling hcall).trans hs) rfl h

/-- The end that all exits but one go through: the guard is cleared and the counters are
started. -/
theorem resumeSampling_eq_ok (h : resumeSampling eventThreadList w = .ok w') :
    w'.tls.sampling = (false, w.tls.current.perfState) ∧ AllEnabled w'.kernel eventThreadList := by
  obtain ⟨_, hstarted, h⟩ := bind_eq_ok.mp h
  cases h
  have hstart : perfStartAll eventThreadList w.kernel =
      (true, (perfStartAll eventThreadList w.kernel).2) :=
    Prod.ext (assert_eq_ok.mp hstarted) rfl
  exact ⟨rfl, ioctlAll_enable hstart⟩

/-- What clearing the guard preserves, the end of the handler preserves. -/
theorem resumeSampling_preserves {P : AgentTls × Variables → Prop}
    (hexit : ∀ t v, P (t, v) → P (profilerSafeExit t, v)) (hw : P (w.tls, w.user))
    (h : resumeSampling eventThreadList w = .ok w') : P (w'.tls, w'.user) := by
  obtain ⟨-, -, h⟩ := bind_eq_ok.mp h
  cases h
  exact hexit _ _ hw

/-- What the callback and the two ends of the guard preserve, the handler preserves. -/
theorem perfEventHandler_preserves {cb : SampleCb Unit Output Variables}
    {P : AgentTls × Variables → Prop}
    (henter : ∀ t v, P (t, v) → P ((profilerSafeEnter t).2, v))
    (hexit : ∀ t v, P (t, v) → P (profilerSafeExit t, v))
    (hcb : ∀ id d a b c s s', P s → cb id d a b c s = .ok s' → P s') (hw : P (w.tls, w.user))
    (h : perfEventHandler mask (some cb) fuel siginfo w = .ok w') : P (w'.tls, w'.user) := by
  have hentered := henter _ _ hw
  unfold perfEventHandler at h
  dsimp only at h
  split at h
  · cases h
    -- the thread was inside the agent
    exact hentered
  · split at h
    · cases h
      -- there is no event list
      exact hentered
    · obtain ⟨-, -, h⟩ := bind_eq_ok.mp h
      split at h
      · exact resumeSampling_preserves hexit hentered h
      · split at h
        · obtain ⟨-, -, h⟩ := bind_eq_ok.mp h
          exact resumeSampling_preserves hexit hentered h
        · obtain ⟨w₁, hdrain, h⟩ := bind_eq_ok.mp h
          obtain ⟨-, -, h⟩ := bind_eq_ok.mp h
          have hdrained : P (w₁.tls, w₁.user) := drainEvent_preserves hcb hentered hdrain
          refine resumeSampling_preserves hexit ?_ h
          exact hdrained

/-- A thread inside the agent refuses the signal. -/
theorem perfEventHandler_refused (mask : Nat) (cb : Option (SampleCb Unit Output Variables))
    (fuel : Nat) (siginfo : SigInfo) (hin : w.tls.current.insideAgent = true) :
    ∃ tls : AgentTls, tls.sampling = w.tls.sampling ∧
      perfEventHandler mask cb fuel siginfo w = .ok { w with tls := tls } := by
  refine ⟨(profilerSafeEnter w.tls).2, ?_, ?_⟩
  · simp [Tls.sampling, hin]
  · simp [perfEventHandler, hin]

/-- Without an event list the handler returns and leaves the guard set: this return comes after
`profiler_safe_enter` and has no `profiler_safe_exit` before it. -/
theorem perfEventHandler_none (mask : Nat) (cb : Option (SampleCb Unit Output Variables))
    (fuel : Nat) (siginfo : SigInfo) (hin : w.tls.current.insideAgent = false)
    (hperf : w.tls.current.perfState = none) :
    ∃ tls : AgentTls, tls.current.insideAgent = true ∧
      perfEventHandler mask cb fuel siginfo w = .ok { w with tls := tls } := by
  refine ⟨(profilerSafeEnter w.tls).2, rfl, ?_⟩
  simp [perfEventHandler, hin, hperf]

/-- The normal way through the handler. -/
theorem perfEventHandler_known {cb : Option (SampleCb Unit Output Variables)}
    {current : PerfEventThread} {k₁ k₃ k₄ : Kernel} {w₂ : AgentThread}
    (hin : w.tls.current.insideAgent = false)
    (hperf : w.tls.current.perfState = some eventThreadList)
    (hstop : perfStopAll eventThreadList w.kernel = (true, k₁)) (hcode : 0 ≤ siginfo.siCode)
    (hfind : findEvent eventThreadList siginfo.siFd = some current)
    (hdrain : drainEvent mask cb fuel current
      { w with tls := (profilerSafeEnter w.tls).2, kernel := k₁ } = .ok w₂)
    (hrestart : restartPerfEvent current.fds w₂.kernel = (true, k₃))
    (hstart : perfStartAll eventThreadList k₃ = (true, k₄)) :
    perfEventHandler mask cb fuel siginfo w =
      .ok { w₂ with tls := profilerSafeExit w₂.tls, kernel := k₄ } := by
  have hneg : ¬ siginfo.siCode < 0 := not_lt.mpr hcode
  simp [perfEventHandler, resumeSampling, hin, hperf, hstop, hneg, hfind, hdrain, hrestart, hstart,
    pure, Except.pure]

/-- With an event list, a handler that returns has cleared the guard and enabled every
counter, whichever way it took. -/
theorem perfEventHandler_some (hin : w.tls.current.insideAgent = false)
    (hperf : w.tls.current.perfState = some eventThreadList)
    (h : perfEventHandler mask (some (onSample env)) fuel siginfo w = .ok w') :
    w'.tls.sampling = (false, some eventThreadList) ∧ AllEnabled w'.kernel eventThreadList := by
  simp only [perfEventHandler, profilerSafeEnter_fst, current_profilerSafeEnter, hin, hperf,
    Bool.not_false, Bool.not_true, Bool.false_eq_true, if_false] at h
  obtain ⟨-, -, h⟩ := bind_eq_ok.mp h
  split at h
  · -- not from the kernel
    have hres := resumeSampling_eq_ok h
    rwa [current_profilerSafeEnter, hperf] at hres
  · split at h
    · -- unknown descriptor
      obtain ⟨-, -, h⟩ := bind_eq_ok.mp h
      have hres := resumeSampling_eq_ok h
      rwa [current_profilerSafeEnter, hperf] at hres
    · -- one of ours
      obtain ⟨w₁, hdrain, h⟩ := bind_eq_ok.mp h
      obtain ⟨-, -, h⟩ := bind_eq_ok.mp h
      have hres := resumeSampling_eq_ok h
      have hkeep : w₁.tls.current.perfState = some eventThreadList := by
        have hsampling := congrArg Prod.snd (drainEvent_sampling hdrain)
        simpa [Tls.sampling, hperf] using hsampling
      rwa [hkeep] at hres

end Signal

/-! ### Sequences of signals

`KeepsSampling` says of a whole sequence that each call of the handler leaves sampling as it
found it; between the calls the kernel may change rings and counters at will. -/

/-- What happens on a thread between two of its own instructions: a signal, or the
kernel changing counters and rings. -/
inductive SignalEvent where
  | signal (siginfo : SigInfo)
  | kernel (k : Kernel)

/-- Whether a call of the handler that took `w` to `w'` leaves sampling as it was. -/
def SamplingIntact (w w' : AgentThread) : Prop :=
  w.tls.current.insideAgent = false →
    w'.tls.current.insideAgent = false ∧
      ∀ eventThreadList, w.tls.current.perfState = some eventThreadList →
        AllEnabled w.kernel eventThreadList → AllEnabled w'.kernel eventThreadList

/-- Sampling stays intact over every call of the handler that returns. -/
def KeepsSampling (env : ProfilerEnv) (mask : Nat) : AgentThread → List SignalEvent → Prop
  | _, [] => True
  | w, .kernel k :: events => KeepsSampling env mask { w with kernel := k } events
  | w, .signal siginfo :: events =>
    ∀ fuel w', perfEventHandler mask (some (onSample env)) fuel siginfo w = .ok w' →
      SamplingIntact w w' ∧ KeepsSampling env mask w' events

/-- No signal is among the events. -/
def NoSignal (events : List SignalEvent) : Prop := ∀ e ∈ events, ∃ k, e = .kernel k

section Sequence

variable {env : ProfilerEnv} {mask : Nat}

/-- What the kernel does is no call of the handler. -/
theorem keepsSampling_of_noSignal {events : List SignalEvent} (h : NoSignal events)
    (w : AgentThread) : KeepsSampling env mask w events := by
  induction events generalizing w with
  | nil => trivial
  | cons e events ih =>
      obtain ⟨k, rfl⟩ := h e List.mem_cons_self
      exact ih (fun e he => h e (List.mem_cons_of_mem _ he)) _

/-- Inside the agent all signals are refused, and the thread stays inside it. -/
theorem keepsSampling_of_insideAgent {w : AgentThread} (hin : w.tls.current.insideAgent = true)
    (events : List SignalEvent) : KeepsSampling env mask w events := by
  induction events generalizing w with
  | nil => trivial
  | cons e events ih =>
      cases e with
      | kernel k => exact ih (by exact hin)
      | signal siginfo =>
          intro fuel w' h
          obtain ⟨tls, htls, hrefused⟩ := perfEventHandler_refused mask (some (onSample env)) fuel
            siginfo hin
          rw [hrefused] at h
          cases h
          have hin' : tls.current.insideAgent = true := (congrArg Prod.fst htls).trans hin
          exact ⟨fun hout => absurd (hin.symm.trans hout) (by decide), ih hin'⟩

/-- With an event list each signal ends as it began, outside the agent and with that list. -/
theorem keepsSampling_of_perfState {w : AgentThread} {eventThreadList : List PerfEventThread}
    (hw : w.tls.sampling = (false, some eventThreadList)) (events : List SignalEvent) :
    KeepsSampling env mask w events := by
  induction events generalizing w with
  | nil => trivial
  | cons e events ih =>
      cases e with
      | kernel k => exact ih (by exact hw)
      | signal siginfo =>
          intro fuel w' h
          obtain ⟨hin, hperf⟩ := Prod.mk.inj hw
          obtain ⟨hw', hall⟩ := perfEventHandler_some hin hperf h
          refine ⟨fun _ => ⟨congrArg Prod.fst hw', fun l hl _ => ?_⟩, ih hw'⟩
          rw [hperf] at hl
          exact Option.some.inj hl ▸ hall

/-- A signal on a thread outside the agent without an event list is the last one
handled. -/
theorem not_keepsSampling {w : AgentThread} (hw : w.tls.sampling = (false, none))
    {events : List SignalEvent} (h : ¬ NoSignal events) : ¬ KeepsSampling env mask w events := by
  induction events generalizing w with
  | nil => exact absurd (by simp [NoSignal]) h
  | cons e events ih =>
      cases e with
      | kernel k =>
          -- nothing happened to the thread, so the signal is among the later events
          refine ih (by exact hw) fun hno => h fun e he => ?_
          rcases List.mem_cons.mp he with rfl | he
          · exact ⟨k, rfl⟩
          · exact hno e he
      | signal siginfo =>
          intro hkeeps
          obtain ⟨hin, hperf⟩ := Prod.mk.inj hw
          obtain ⟨tls, htls, hret⟩ := perfEventHandler_none mask (some (onSample env)) 0 siginfo hin
            hperf
          have hout := ((hkeeps 0 _ hret).1 hin).1
          exact absurd (htls.symm.trans hout) (by decide)

/-- **A signal keeps sampling going.** The handler keeps sampling intact over a sequence of
signals exactly when none is delivered, or the thread is inside the agent, or it has an event
list. -/
theorem keepsSampling_iff (env : ProfilerEnv) (mask : Nat) (w : AgentThread)
    (events : List SignalEvent) :
    KeepsSampling env mask w events ↔
      NoSignal events ∨ w.tls.current.insideAgent = true ∨ w.tls.current.perfState ≠ none := by
  constructor
  · intro hkeeps
    by_contra hno
    simp only [not_or, Bool.not_eq_true, not_not] at hno
    obtain ⟨hsig, hin, hperf⟩ := hno
    exact not_keepsSampling (Prod.ext hin hperf) hsig hkeeps
  · intro hcases
    rcases hcases with hno | hin | hperf
    · exact keepsSampling_of_noSignal hno w
    · exact keepsSampling_of_insideAgent hin events
    · cases hin : w.tls.current.insideAgent with
      | true => exact keepsSampling_of_insideAgent hin events
      | false =>
          obtain ⟨l, hl⟩ := Option.ne_none_iff_exists'.mp hperf
          exact keepsSampling_of_perfState (Prod.ext hin hl) events

end Sequence

/-- One signal to a thread without an event list ends its sampling. -/
theorem newThread_loses_sampling :
    (newThread 7).tls.current.insideAgent = false ∧
      ¬ KeepsSampling genericEnv 4095 (newThread 7) [.signal ⟨0, 3⟩] := by
  refine ⟨rfl, not_keepsSampling rfl fun hno => ?_⟩
  obtain ⟨k, hk⟩ := hno _ List.mem_cons_self
  cases hk

end DroidPerf
