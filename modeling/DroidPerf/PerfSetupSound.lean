import DroidPerf.PerfHandlerSound

/-!
# DroidPerf.PerfSetupSound

Which ring belongs to which descriptor after `setupEvents`.

`setupEvents` maps a ring on each of an event's eight descriptors but keeps one address per
event, which every CPU overwrites: the entry of an event ends up with the ring of its last CPU
(`setupEvents_succeeds`). The handler therefore drains that ring whichever of the eight
descriptors the signal came from, and `closeEvents` unmaps it and no other.

A set-up in which all calls succeed is evaluated once: the kernel's state after it is the one
before with the pairs of descriptors and rings attached in order (`setupLoop_succeeds`), and
`AfterSetup` is what the later proofs need of that. That the rings of the other CPUs are lost
is then shown by one signal, for the first CPU of the first event (`handler_drains_last`), and
by counting the calls of `munmap` (`closeEvents_unmapped`).
-/

namespace DroidPerf

/-! ### A run in which every system call succeeds

The kernel's answers are a parameter, one for each event and CPU. Here all of them are good
ones, so nothing that is lost below is lost because of a failure. -/

/-- The kernel's answers for one descriptor are `fd` and the ring `buf`. -/
structure Succeeds (a : SetupAnswers) (fd : Int) (buf : Nat) : Prop where
  opened : a.perfEventOpen = fd
  fd_nonneg : 0 ≤ fd
  getfl : 0 ≤ a.getfl
  setfl : 0 ≤ a.setfl
  setownEx : 0 ≤ a.setownEx
  setsig : 0 ≤ a.setsig
  mapped : a.mmap = some buf

/-- All system calls of `setupEvents` succeed. Open descriptors are distinct, and so
are mapped addresses. -/
structure SyscallsSucceed (numEvents : Nat) (answers : Nat → Fin 8 → SetupAnswers)
    (fd : Nat → Fin 8 → Int) (buf : Nat → Fin 8 → Nat) : Prop where
  succeeds : ∀ i < numEvents, ∀ c, Succeeds (answers i c) (fd i c) (buf i c)
  fd_inj : ∀ i < numEvents, ∀ j < numEvents, ∀ c d, fd i c = fd j d → i = j ∧ c = d
  buf_inj : ∀ i < numEvents, ∀ j < numEvents, ∀ c d, buf i c = buf j d → i = j ∧ c = d

/-- A counter opened and its ring mapped. -/
def Kernel.attach (k : Kernel) (p : Int × Nat) : Kernel := (k.openCounter p.1).mapRing p.1 p.2

/-- The iteration for one CPU opens a counter and maps its ring. -/
theorem setupCpu_succeeds {a : SetupAnswers} {fd : Int} {buf : Nat} (h : Succeeds a fd buf)
    (k : Kernel) : setupCpu a k = .ok (some (fd, buf), k.attach (fd, buf)) := by
  obtain ⟨rfl, hfd, hgetfl, hsetfl, hown, hsig, hmap⟩ := h
  have hreset : (ioctl (k.openCounter a.perfEventOpen) a.perfEventOpen .reset).getD
      (k.openCounter a.perfEventOpen) = k.openCounter a.perfEventOpen := by
    simp [ioctl, Kernel.openCounter, IoctlRequest.apply]
  rw [setupCpu, if_neg (by omega)]
  simp only [hreset]
  rw [if_neg (by omega), if_neg (by omega), if_neg (by omega), if_neg (by omega), hmap]
  rfl

section Setup

variable {answers : Nat → Fin 8 → SetupAnswers} {fd : Nat → Fin 8 → Int}
  {buf : Nat → Fin 8 → Nat}

/-- The entry that `setupEvents` makes for an event: eight descriptors, and the ring
of the last one. -/
def setupEntry (fd : Nat → Fin 8 → Int) (buf : Nat → Fin 8 → Nat) (i : Nat)
    (event : PerfEventInfo) : PerfEventThread := ⟨i, fd i, some (buf i 7), event⟩

/-- The descriptors and rings of an event, in the order in which they are made. -/
def setupPairs (fd : Nat → Fin 8 → Int) (buf : Nat → Fin 8 → Nat) (i : Nat) : List (Int × Nat) :=
  (List.finRange 8).map fun c => (fd i c, buf i c)

/-- The loop over the CPUs: the descriptors are kept one by one, of the rings the last one. -/
theorem setupCpus_succeeds {a : Fin 8 → SetupAnswers} {f : Fin 8 → Int} {b : Fin 8 → Nat}
    {cpus : List (Fin 8)} (h : ∀ c ∈ cpus, Succeeds (a c) (f c) (b c)) (et : PerfEventThread)
    (k : Kernel) :
    setupCpus a cpus et k =
      .ok (some { et with
          fd := fun c => if c ∈ cpus then f c else et.fd c
          mmapBuf := cpus.foldl (fun _ c => some (b c)) et.mmapBuf },
        (cpus.map fun c => (f c, b c)).foldl Kernel.attach k) := by
  induction cpus generalizing et k with
  | nil => simp [setupCpus]
  | cons c cpus ih =>
      rw [setupCpus, setupCpu_succeeds (h c List.mem_cons_self), ok_bind]
      simp only []
      have hfd : (fun d => if d ∈ cpus then f d else Function.update et.fd c (f c) d) =
          fun d => if d ∈ c :: cpus then f d else et.fd d := by
        funext d
        by_cases hd : d = c
        · simp [hd]
        · simp [hd, Function.update_of_ne]
      rw [ih fun c hc => h c (List.mem_cons_of_mem _ hc), hfd]
      rfl

/-- The loop over the events appends an entry for each. -/
theorem setupLoop_succeeds {events : List PerfEventInfo} {i : Nat}
    (h : ∀ j < i + events.length, ∀ c, Succeeds (answers j c) (fd j c) (buf j c))
    (l : List PerfEventThread) (k : Kernel) :
    setupLoop answers i events l k =
      .ok (true, l ++ events.mapIdx (fun j => setupEntry fd buf (i + j)),
        ((List.range' i events.length).flatMap (setupPairs fd buf)).foldl Kernel.attach k) := by
  induction events generalizing i l k with
  | nil => simp [setupLoop]
  | cons event events ih =>
      rw [List.length_cons] at h
      rw [setupLoop, setupCpus_succeeds fun c _ => h i (by omega) c, ok_bind]
      simp only []
      rw [ih fun j hj => h j (by omega)]
      have hentry : (⟨i, fun c => if c ∈ List.finRange 8 then fd i c else 0,
          (List.finRange 8).foldl (fun _ c => some (buf i c)) none, event⟩ : PerfEventThread) =
            setupEntry fd buf i event := by
        have hlast : (List.finRange 8).foldl (fun _ c => some (buf i c)) none =
            some (buf i 7) := rfl
        simp [setupEntry, hlast]
      rw [hentry, List.mapIdx_cons, List.length_cons, List.range'_succ, List.flatMap_cons,
        List.foldl_append]
      simp [setupPairs, Nat.add_comm, Nat.add_left_comm]

/-! ### The kernel's state

What a sequence of `attach` leaves in the kernel: the counters open, each ring mapped on its
descriptor and empty, nothing unmapped. -/

/-- A counter that was opened on the way, or before, is open and not enabled. -/
theorem attach_foldl_counters {ps : List (Int × Nat)} {k : Kernel} {f : Int}
    (h : f ∈ ps.map Prod.fst ∨ k.counters f = some false) :
    (ps.foldl Kernel.attach k).counters f = some false := by
  induction ps generalizing k with
  | nil => simpa using h
  | cons p ps ih =>
      refine ih ?_
      by_cases hf : f = p.1
      · exact .inr (by simp [Kernel.attach, Kernel.openCounter, Kernel.mapRing, hf])
      · rcases h with h | h
        · exact .inl (by simpa [hf] using h)
        · refine .inr ?_
          simp [Kernel.attach, Kernel.openCounter, Kernel.mapRing, Function.update_of_ne hf, h]

/-- Other rings stay as they are. -/
theorem attach_foldl_rings_of_notMem {ps : List (Int × Nat)} {k : Kernel} {b : Nat}
    (h : b ∉ ps.map Prod.snd) : (ps.foldl Kernel.attach k).rings b = k.rings b := by
  induction ps generalizing k with
  | nil => rfl
  | cons p ps ih =>
      simp only [List.map_cons, List.mem_cons, not_or] at h
      rw [List.foldl_cons, ih h.2]
      simp [Kernel.attach, Kernel.openCounter, Kernel.mapRing, Function.update_of_ne h.1]

/-- Each ring is mapped on its own descriptor, since no address is handed out twice. -/
theorem attach_foldl_rings {ps : List (Int × Nat)} (hnd : (ps.map Prod.snd).Nodup) {k : Kernel}
    {f : Int} {b : Nat} (h : (f, b) ∈ ps) :
    (ps.foldl Kernel.attach k).rings b = some (f, ⟨fun _ => 0, 0, 0⟩) := by
  induction ps generalizing k with
  | nil => cases h
  | cons p ps ih =>
      simp only [List.map_cons, List.nodup_cons] at hnd
      rcases List.mem_cons.mp h with rfl | h
      · rw [List.foldl_cons, attach_foldl_rings_of_notMem hnd.1]
        simp [Kernel.attach, Kernel.openCounter, Kernel.mapRing]
      · exact ih hnd.2 h

/-- Nothing is unmapped on the way. -/
theorem attach_foldl_unmapped {ps : List (Int × Nat)} {k : Kernel} :
    (ps.foldl Kernel.attach k).unmapped = k.unmapped := by
  induction ps generalizing k with
  | nil => rfl
  | cons p ps ih => exact ih

/-- A request closes no counter. -/
theorem isSome_update {counters : Int → Option Bool} {f g : Int} (on : Bool)
    (h : (counters g).isSome) : (Function.update counters f (some on) g).isSome := by
  by_cases hgf : g = f
  · rw [hgf, Function.update_self]
    rfl
  · rwa [Function.update_of_ne hgf]

/-- Requests succeed on open counters, and change nothing but the counters. -/
theorem ioctlAll_of_open (request : IoctlRequest) {fds : List Int} {k : Kernel}
    (h : ∀ fd ∈ fds, (k.counters fd).isSome) :
    ∃ k', ioctlAll request fds k = (true, k') ∧ k'.rings = k.rings ∧ k'.unmapped = k.unmapped ∧
      ∀ fd, (k.counters fd).isSome → (k'.counters fd).isSome := by
  induction fds generalizing k with
  | nil => exact ⟨k, rfl, rfl, rfl, fun _ h => h⟩
  | cons f fds ih =>
      rw [ioctlAll]
      split
      · exact ih fun g hg => h g (List.mem_cons_of_mem _ hg)
      · obtain ⟨on, hon⟩ := Option.isSome_iff_exists.mp (h f List.mem_cons_self)
        obtain ⟨k', hk', hrings, hunm, hkeep⟩ := ih (k := { k with
          counters := Function.update k.counters f (some (request.apply on)) })
          fun g hg => isSome_update _ (h g (List.mem_cons_of_mem _ hg))
        refine ⟨k', ?_, hrings, hunm, fun g hg => hkeep g (isSome_update _ hg)⟩
        simpa [ioctl, hon] using hk'

/-- Resetting and refreshing the descriptors of an entry succeeds if they are open. -/
theorem restartPerfEvent_of_open {fds : List Int} {k : Kernel}
    (hpos : ∀ fd ∈ fds, 0 ≤ fd) (h : ∀ fd ∈ fds, (k.counters fd).isSome) :
    ∃ k', restartPerfEvent fds k = (true, k') ∧ k'.rings = k.rings ∧
      ∀ fd, (k.counters fd).isSome → (k'.counters fd).isSome := by
  induction fds generalizing k with
  | nil => exact ⟨k, rfl, rfl, fun _ h => h⟩
  | cons f fds ih =>
      obtain ⟨on, hon⟩ := Option.isSome_iff_exists.mp (h f List.mem_cons_self)
      have hf := hpos f List.mem_cons_self
      obtain ⟨k', hk', hrings, hkeep⟩ := ih (k := { k with
        counters := Function.update k.counters f (some true) })
        (fun g hg => hpos g (List.mem_cons_of_mem _ hg))
        fun g hg => isSome_update _ (h g (List.mem_cons_of_mem _ hg))
      refine ⟨k', ?_, hrings, fun g hg => hkeep g (isSome_update _ hg)⟩
      rw [restartPerfEvent, if_neg (by omega)]
      simpa [ioctl, hon, IoctlRequest.apply] using hk'

/-! ### After set-up

The state that the handler and `closeEvents` find: the list with an entry per event, the
counters open, and eight empty rings per event. -/

/-- A thread on which `setupEvents` has just succeeded. -/
structure AfterSetup (eventInfo : List PerfEventInfo) (fd : Nat → Fin 8 → Int)
    (buf : Nat → Fin 8 → Nat) (w : AgentThread) : Prop where
  perfState_eq : w.tls.current.perfState = some (eventInfo.mapIdx (setupEntry fd buf))
  opened : ∀ i < eventInfo.length, ∀ c, (w.kernel.counters (fd i c)).isSome
  mapped : ∀ i < eventInfo.length, ∀ c,
    w.kernel.rings (buf i c) = some (fd i c, ⟨fun _ => 0, 0, 0⟩)

/-- No ring is among the pairs twice. -/
theorem nodup_setupPairs {numEvents : Nat} (h : SyscallsSucceed numEvents answers fd buf) :
    (((List.range numEvents).flatMap (setupPairs fd buf)).map Prod.snd).Nodup := by
  rw [List.map_flatMap, List.nodup_flatMap]
  constructor
  · intro i hi
    rw [setupPairs, List.map_map]
    refine (List.nodup_finRange 8).map fun c d hcd => ?_
    exact (h.buf_inj i (List.mem_range.mp hi) i (List.mem_range.mp hi) c d hcd).2
  · refine List.Pairwise.imp_of_mem ?_ List.nodup_range
    intro i j hi hj hij b hbi hbj
    simp only [setupPairs, List.map_map, List.mem_map, Function.comp_def] at hbi hbj
    obtain ⟨c, -, rfl⟩ := hbi
    obtain ⟨d, -, hd⟩ := hbj
    exact hij (h.buf_inj i (List.mem_range.mp hi) j (List.mem_range.mp hj) c d hd.symm).1

/-- Each event and CPU has its pair. -/
theorem mem_setupPairs {numEvents i : Nat} (hi : i < numEvents) (c : Fin 8) :
    (fd i c, buf i c) ∈ (List.range numEvents).flatMap (setupPairs fd buf) :=
  List.mem_flatMap.mpr ⟨i, List.mem_range.mpr hi,
    List.mem_map.mpr ⟨c, List.mem_finRange c, rfl⟩⟩

/-- The descriptors of the list are those of all events and CPUs. -/
theorem mem_setupEntries_fds {eventInfo : List PerfEventInfo} {f : Int} :
    f ∈ (eventInfo.mapIdx (setupEntry fd buf)).flatMap PerfEventThread.fds ↔
      ∃ i < eventInfo.length, ∃ c, fd i c = f := by
  constructor
  · intro h
    obtain ⟨et, het, hf⟩ := List.mem_flatMap.mp h
    obtain ⟨i, hi, rfl⟩ := List.mem_mapIdx.mp het
    obtain ⟨c, -, rfl⟩ := List.mem_map.mp hf
    exact ⟨i, hi, c, rfl⟩
  · rintro ⟨i, hi, c, rfl⟩
    refine List.mem_flatMap.mpr ⟨_, List.mem_mapIdx.mpr ⟨i, hi, rfl⟩, ?_⟩
    exact List.mem_map.mpr ⟨c, List.mem_finRange c, rfl⟩

/-- All descriptors of the list are open. -/
theorem AfterSetup.isSome_counters {eventInfo : List PerfEventInfo} {w : AgentThread}
    (h : AfterSetup eventInfo fd buf w) :
    ∀ f ∈ (eventInfo.mapIdx (setupEntry fd buf)).flatMap PerfEventThread.fds,
      (w.kernel.counters f).isSome := by
  intro f hf
  obtain ⟨i, hi, c, rfl⟩ := mem_setupEntries_fds.mp hf
  exact h.opened i hi c

/-- A set-up in which all calls succeed returns true, unmaps nothing and leaves the thread as
`AfterSetup` says. -/
theorem setupEvents_succeeds {eventInfo : List PerfEventInfo}
    (h : SyscallsSucceed eventInfo.length answers fd buf) {w : AgentThread}
    (hfresh : w.tls.current.perfState = none) :
    ∃ w₁, setupEvents eventInfo answers w = .ok (true, w₁) ∧ AfterSetup eventInfo fd buf w₁ ∧
      w₁.kernel.unmapped = w.kernel.unmapped := by
  have hloop := setupLoop_succeeds (i := 0)
    (fun j hj => h.succeeds j (by simpa using hj)) [] w.kernel
  rw [← List.range_eq_range', List.nil_append] at hloop
  simp only [Nat.zero_add] at hloop
  generalize hk : ((List.range eventInfo.length).flatMap (setupPairs fd buf)).foldl
    Kernel.attach w.kernel = k at hloop
  have hopen : ∀ i < eventInfo.length, ∀ c, k.counters (fd i c) = some false := fun i hi c => by
    rw [← hk]
    exact attach_foldl_counters (.inl (List.mem_map.mpr ⟨_, mem_setupPairs hi c, rfl⟩))
  have hrings : ∀ i < eventInfo.length, ∀ c,
      k.rings (buf i c) = some (fd i c, ⟨fun _ => 0, 0, 0⟩) := fun i hi c => by
    rw [← hk]
    exact attach_foldl_rings (nodup_setupPairs h) (mem_setupPairs hi c)
  have hunm : k.unmapped = w.kernel.unmapped := by rw [← hk, attach_foldl_unmapped]
  have hfds : ∀ f ∈ (eventInfo.mapIdx (setupEntry fd buf)).flatMap PerfEventThread.fds,
      (k.counters f).isSome := by
    intro f hf
    obtain ⟨i, hi, c, rfl⟩ := mem_setupEntries_fds.mp hf
    simp [hopen i hi c]
  obtain ⟨k', hstart, hrings', hunm', hkeep⟩ := ioctlAll_of_open .enable hfds
  refine ⟨⟨w.tls.update fun td => { td with
    perfState := some (eventInfo.mapIdx (setupEntry fd buf)) }, k', w.user⟩, ?_, ⟨rfl, ?_, ?_⟩, ?_⟩
  · simp [setupEvents, hfresh, hloop, perfStartAll, hstart, pure, Except.pure]
  · exact fun i hi c => hkeep _ (by simp [hopen i hi c])
  · exact fun i hi c => (congrFun hrings' _).trans (hrings i hi c)
  · exact hunm'.trans hunm

/-! ### Closing

`closeEvents` goes through the list by index. Of each entry it unmaps the ring that the entry
holds. -/

/-- Closing an entry unmaps its ring, if it has one, and no other. -/
theorem closeEvent_unmapped (et : PerfEventThread) (k : Kernel) :
    (closeEvent et k).unmapped = k.unmapped ++ et.mmapBuf.toList := by
  have hclose : ∀ (fds : List Int) (k : Kernel),
      (fds.foldl (fun k fd => if 0 ≤ fd then k.close fd else k) k).unmapped = k.unmapped := by
    intro fds
    induction fds with
    | nil => exact fun _ => rfl
    | cons fd fds ih =>
        intro k
        rw [List.foldl_cons, ih]
        split <;> rfl
  rw [closeEvent]
  cases hbuf : et.mmapBuf with
  | none => rw [perfUnmmap, hclose, Option.toList_none, List.append_nil]
  | some b => simp only [perfUnmmap, hclose, Option.toList_some]

/-- The loop unmaps the rings of the entries it visits. -/
theorem closeLoop_unmapped {eventThreadList : List PerfEventThread} {is : List Nat}
    (h : ∀ i ∈ is, i < eventThreadList.length) (k : Kernel) :
    ∃ k', closeLoop eventThreadList is k = .ok k' ∧
      k'.unmapped = k.unmapped ++ is.flatMap fun i =>
        (eventThreadList[i]?.bind PerfEventThread.mmapBuf).toList := by
  induction is generalizing k with
  | nil => exact ⟨k, rfl, by simp⟩
  | cons i is ih =>
      have hlt : i < eventThreadList.length := h i List.mem_cons_self
      have hi : eventThreadList[i]? = some eventThreadList[i] := List.getElem?_eq_getElem hlt
      obtain ⟨k', hk', hunm⟩ := ih (fun j hj => h j (List.mem_cons_of_mem _ hj))
        (closeEvent eventThreadList[i] k)
      refine ⟨k', by rw [closeLoop, hi]; exact hk', ?_⟩
      rw [hunm, closeEvent_unmapped, List.append_assoc, List.flatMap_cons, hi]
      rfl

/-- `closeEvents` unmaps one ring per event, that of the last CPU. -/
theorem closeEvents_unmapped {eventInfo : List PerfEventInfo} {w : AgentThread}
    (h : AfterSetup eventInfo fd buf w) :
    ∃ w', closeEvents eventInfo.length w = .ok w' ∧
      w'.kernel.unmapped = w.kernel.unmapped ++ (List.range eventInfo.length).map (buf · 7) := by
  obtain ⟨k₁, hstop, -, hunm₁, -⟩ := ioctlAll_of_open .disable h.isSome_counters
  have hlen : ∀ i ∈ List.range eventInfo.length,
      i < (eventInfo.mapIdx (setupEntry fd buf)).length := by simp
  obtain ⟨k₂, hclose, hunm₂⟩ := closeLoop_unmapped hlen k₁
  have hbufs : ((List.range eventInfo.length).flatMap fun i =>
      ((eventInfo.mapIdx (setupEntry fd buf))[i]?.bind PerfEventThread.mmapBuf).toList) =
        (List.range eventInfo.length).map (buf · 7) := by
    rw [List.map_eq_flatMap]
    refine List.flatMap_congr fun i hi => ?_
    simp [List.getElem?_eq_getElem (List.mem_range.mp hi), setupEntry]
  refine ⟨⟨w.tls.update fun td => { td with perfState := none }, k₂, w.user⟩, ?_, ?_⟩
  · simp [closeEvents, h.perfState_eq, perfStopAll, hstop, hclose, pure, Except.pure]
  · rw [hunm₂, hunm₁, hbufs]

/-! ### Draining

What the handler is to do is put as a property of the thread (`DrainsOwnRing`), for all signals
and all contents of the rings. One signal is enough to refute it. -/

/-- The kernel has put data into the mapped rings. -/
def Kernel.fill (k : Kernel) (contents : Nat → PerfMmap) : Kernel :=
  { k with rings := fun b => (k.rings b).map fun r => (r.1, contents b) }

/-- The search ends at the first entry if the descriptor is in it and in no other. -/
theorem findEvent_cons {et : PerfEventThread} {ets : List PerfEventThread} {siFd : Int}
    (h : siFd ∈ et.fds) (hrest : ∀ et' ∈ ets, siFd ∉ et'.fds) :
    findEvent (et :: ets) siFd = some et := by
  have hkeep : ∀ (l : List PerfEventThread) (current : Option PerfEventThread),
      (∀ et' ∈ l, siFd ∉ et'.fds) →
        l.foldl (fun current et => if siFd ∈ et.fds then some et else current) current =
          current := by
    intro l
    induction l with
    | nil => exact fun _ _ => rfl
    | cons e l ih =>
        intro current hl
        rw [List.foldl_cons, if_neg (hl e List.mem_cons_self)]
        exact ih current fun e' he' => hl e' (List.mem_cons_of_mem _ he')
  rw [findEvent, List.foldl_cons, if_pos h]
  exact hkeep ets _ hrest

/-- The descriptor of the first CPU belongs to the first entry. -/
theorem findEvent_first {event : PerfEventInfo} {events : List PerfEventInfo}
    (hsys : SyscallsSucceed (event :: events).length answers fd buf) :
    findEvent ((event :: events).mapIdx (setupEntry fd buf)) (fd 0 0) =
      some (setupEntry fd buf 0 event) := by
  rw [List.mapIdx_cons]
  refine findEvent_cons (List.mem_map.mpr ⟨0, List.mem_finRange 0, rfl⟩) fun et het hmem => ?_
  obtain ⟨i, hi, rfl⟩ := List.mem_mapIdx.mp het
  obtain ⟨c, -, hc⟩ := List.mem_map.mp hmem
  have hi' : i + 1 < (event :: events).length := by simpa using hi
  exact absurd (hsys.fd_inj (i + 1) hi' 0 (Nat.succ_pos _) c 0 hc).1 (Nat.succ_ne_zero i)

/-- A signal for `f` makes the handler empty the ring mapped on `f`, whatever the
kernel has put into the rings. The signal comes once the callback that ran
`setupEvents` is over. -/
def DrainsOwnRing (env : ProfilerEnv) (mask : Nat) (w : AgentThread) : Prop :=
  ∀ eventThreadList, w.tls.current.perfState = some eventThreadList →
    ∀ f ∈ eventThreadList.flatMap PerfEventThread.fds, ∀ contents fuel siCode w', 0 ≤ siCode →
      perfEventHandler mask (some (onSample env)) fuel ⟨siCode, f⟩
        ⟨profilerSafeExit w.tls, w.kernel.fill contents, w.user⟩ = .ok w' →
      ∀ b m, w'.kernel.rings b = some (f, m) → perfNumOfRemainingData m ≤ 0

/-- `closeEvents` unmaps each ring mapped on a descriptor of the list exactly once. -/
def UnmapsOwnRings (numEvents : Nat) (w : AgentThread) : Prop :=
  ∃ w' calls, closeEvents numEvents w = .ok w' ∧
    w'.kernel.unmapped = w.kernel.unmapped ++ calls ∧
    ∀ eventThreadList, w.tls.current.perfState = some eventThreadList →
      ∀ f ∈ eventThreadList.flatMap PerfEventThread.fds, ∀ b m,
        w.kernel.rings b = some (f, m) → calls.count b = 1

/-- A ring with less than a header in it. -/
def shortRing : PerfMmap := ⟨fun _ => 0, 4, 0⟩

/-- On a signal for the first CPU of the first event the handler empties the ring of
the last CPU. -/
theorem handler_drains_last {event : PerfEventInfo} {events : List PerfEventInfo}
    (hsys : SyscallsSucceed (event :: events).length answers fd buf) {w : AgentThread}
    (h : AfterSetup (event :: events) fd buf w) (env : ProfilerEnv) (mask : Nat) :
    ∃ w', perfEventHandler mask (some (onSample env)) 1 ⟨0, fd 0 0⟩
        ⟨profilerSafeExit w.tls, w.kernel.fill fun _ => shortRing, w.user⟩ = .ok w' ∧
      w'.kernel.rings (buf 0 0) = some (fd 0 0, shortRing) := by
  have hpos : 0 < (event :: events).length := Nat.succ_pos _
  -- every request succeeds
  have hfds : ∀ f ∈ ((event :: events).mapIdx (setupEntry fd buf)).flatMap PerfEventThread.fds,
      ((w.kernel.fill fun _ => shortRing).counters f).isSome := h.isSome_counters
  obtain ⟨k₁, hstop, hrings₁, -, hopen₁⟩ := ioctlAll_of_open .disable hfds
  -- its ring is the one of the last CPU
  have hring : k₁.rings (buf 0 7) = some (fd 0 7, shortRing) := by
    simp [hrings₁, Kernel.fill, h.mapped 0 hpos 7]
  have hother : k₁.rings (buf 0 0) = some (fd 0 0, shortRing) := by
    simp [hrings₁, Kernel.fill, h.mapped 0 hpos 0]
  have hne : buf 0 0 ≠ buf 0 7 := fun heq =>
    absurd (hsys.buf_inj 0 hpos 0 hpos 0 7 heq).2 (by decide)
  -- the state after the drain: the last CPU's ring has been emptied
  generalize hk₂ : ({ k₁ with
    rings := Function.update k₁.rings (buf 0 7) (some (fd 0 7, perfSkipAll shortRing)) } :
      Kernel) = k₂
  have hother₂ : k₂.rings (buf 0 0) = some (fd 0 0, shortRing) := by
    rw [← hk₂]
    exact (Function.update_of_ne hne _ _).trans hother
  have hopen₂ : ∀ f ∈ ((event :: events).mapIdx (setupEntry fd buf)).flatMap PerfEventThread.fds,
      (k₂.counters f).isSome := by
    rw [← hk₂]
    exact fun f hf => hopen₁ f (hfds f hf)
  -- after the drain the counters are restarted, which changes no ring
  have hentry : ∀ f ∈ (setupEntry fd buf 0 event).fds,
      f ∈ ((event :: events).mapIdx (setupEntry fd buf)).flatMap PerfEventThread.fds := fun f hf =>
    List.mem_flatMap.mpr ⟨_, by rw [List.mapIdx_cons]; exact List.mem_cons_self, hf⟩
  have hnonneg : ∀ f ∈ (setupEntry fd buf 0 event).fds, 0 ≤ f := by
    intro f hf
    obtain ⟨c, -, rfl⟩ := List.mem_map.mp hf
    exact (hsys.succeeds 0 hpos c).fd_nonneg
  obtain ⟨k₃, hrestart, hrings₃, hopen₃⟩ := restartPerfEvent_of_open hnonneg fun f hf =>
    hopen₂ f (hentry f hf)
  obtain ⟨k₄, hstart, hrings₄, -, -⟩ := ioctlAll_of_open .enable fun f hf =>
    hopen₃ f (hopen₂ f hf)
  have hdrain : drainEvent mask (some (onSample env)) 1 (setupEntry fd buf 0 event)
      ⟨(profilerSafeEnter (profilerSafeExit w.tls)).2, k₁, w.user⟩ =
        .ok ⟨(profilerSafeEnter (profilerSafeExit w.tls)).2, k₂, w.user⟩ := by
    rw [← hk₂]
    simp only [drainEvent, setupEntry, hring]
    rfl
  -- so the first CPU's ring is as it was
  refine ⟨_, perfEventHandler_known rfl h.perfState_eq hstop (le_refl 0) (findEvent_first hsys) hdrain
    hrestart hstart, ?_⟩
  exact (congrFun hrings₄ _).trans ((congrFun hrings₃ _).trans hother₂)

/-! ### Which rings stay reachable

The two properties after a set-up. With no event there is no ring, and both hold for want of
one. -/

section Reachable

variable {eventInfo : List PerfEventInfo} {w : AgentThread}

/-- A signal empties the ring of its own descriptor only if there is no event at all. -/
theorem drainsOwnRing_iff (hsys : SyscallsSucceed eventInfo.length answers fd buf)
    (h : AfterSetup eventInfo fd buf w) (env : ProfilerEnv) (mask : Nat) :
    DrainsOwnRing env mask w ↔ eventInfo = [] := by
  constructor
  · intro hdrains
    by_contra hne
    obtain ⟨event, events, rfl⟩ := List.exists_cons_of_ne_nil hne
    obtain ⟨w', hw', hring⟩ := handler_drains_last hsys h env mask
    have hmem : fd 0 0 ∈
        ((event :: events).mapIdx (setupEntry fd buf)).flatMap PerfEventThread.fds :=
      mem_setupEntries_fds.mpr ⟨0, Nat.succ_pos _, 0, rfl⟩
    have hempty := hdrains _ h.perfState_eq _ hmem _ 1 0 w' (le_refl 0) hw' _ _ hring
    exact absurd hempty (by decide)
  · intro heq eventThreadList hl f hf
    subst heq
    rw [h.perfState_eq] at hl
    cases hl
    simp at hf

/-- The rings are unmapped once each only if there is no event at all. -/
theorem unmapsOwnRings_iff (hsys : SyscallsSucceed eventInfo.length answers fd buf)
    (h : AfterSetup eventInfo fd buf w) :
    UnmapsOwnRings eventInfo.length w ↔ eventInfo = [] := by
  obtain ⟨w', hclose, hunm⟩ := closeEvents_unmapped h
  constructor
  · intro hunmaps
    obtain ⟨w'', calls, hclose', hcalls, hcount⟩ := hunmaps
    rw [hclose] at hclose'
    cases hclose'
    rw [hunm] at hcalls
    have hcalls := List.append_cancel_left hcalls
    by_contra hne
    have hpos : 0 < eventInfo.length := List.length_pos_iff.mpr hne
    have hmem : fd 0 0 ∈ (eventInfo.mapIdx (setupEntry fd buf)).flatMap PerfEventThread.fds :=
      mem_setupEntries_fds.mpr ⟨0, hpos, 0, rfl⟩
    have hone := hcount _ h.perfState_eq _ hmem _ _ (h.mapped 0 hpos 0)
    have hin : buf 0 0 ∈ calls := List.count_pos_iff.mp (by omega)
    rw [← hcalls] at hin
    obtain ⟨i, hi, heq⟩ := List.mem_map.mp hin
    exact absurd (hsys.buf_inj i (List.mem_range.mp hi) 0 hpos 7 0 heq).2 (by decide)
  · intro heq
    subst heq
    refine ⟨w', [], hclose, by simpa using hunm, fun eventThreadList hl f hf => ?_⟩
    rw [h.perfState_eq] at hl
    cases hl
    simp at hf

end Reachable

end Setup

/-- **Seven of eight rings are lost.** After a set-up in which every system call succeeds, each
mapped ring is drained for its own descriptor and unmapped once exactly when no event is
configured: with any event, seven of its eight rings are lost. -/
theorem setupEvents_reachable_iff (env : ProfilerEnv) (mask : Nat)
    (eventInfo : List PerfEventInfo) (answers : Nat → Fin 8 → SetupAnswers)
    (fd : Nat → Fin 8 → Int) (buf : Nat → Fin 8 → Nat)
    (hsys : SyscallsSucceed eventInfo.length answers fd buf) (w : AgentThread)
    (hfresh : w.tls.current.perfState = none) :
    ∃ w₁, setupEvents eventInfo answers w = .ok (true, w₁) ∧
      (DrainsOwnRing env mask w₁ ∧ UnmapsOwnRings eventInfo.length w₁ ↔ eventInfo = []) := by
  obtain ⟨w₁, hsetup, hafter, -⟩ := setupEvents_succeeds hsys hfresh
  refine ⟨w₁, hsetup, ?_⟩
  rw [drainsOwnRing_iff hsys hafter, unmapsOwnRings_iff hsys hafter, and_self_iff]

/-- Descriptors and addresses as a kernel may hand them out. -/
def plainFd (i : Nat) (c : Fin 8) : Int := 8 * i + c + 3

def plainBuf (i : Nat) (c : Fin 8) : Nat := (8 * i + c + 1) * 8192

def plainAnswers (i : Nat) (c : Fin 8) : SetupAnswers :=
  ⟨plainFd i c, 0, 0, 0, 0, some (plainBuf i c)⟩

theorem plainAnswers_succeed (numEvents : Nat) :
    SyscallsSucceed numEvents plainAnswers plainFd plainBuf where
  succeeds i _ c := ⟨rfl, by simp only [plainFd]; omega, le_refl _, le_refl _, le_refl _, le_refl _,
    rfl⟩
  fd_inj i _ j _ c d h := by
    simp only [plainFd] at h
    have hc := c.isLt
    have hd := d.isLt
    exact ⟨by omega, Fin.ext (by omega)⟩
  buf_inj i _ j _ c d h := by
    simp only [plainBuf] at h
    have hc := c.isLt
    have hd := d.isLt
    exact ⟨by omega, Fin.ext (by omega)⟩

/-- One event, counting every cycle. -/
def cycles : PerfEventInfo := ⟨0, 1, 2, "cycles", 1000, perfAttrInit 1000 perfSampleTid⟩

/-- The last of the rings of `plainAnswers` holds a sample. -/
def sampledKernel : Kernel where
  counters _ := some true
  rings buf := if buf = plainBuf 0 (Fin.last 7) then
    some (10, ⟨fun i => if i = 0 then 9 else if i = 6 then 36 else 0, 36, 0⟩) else none
  unmapped := []

theorem setupEvents_one_event :
    ∃ w₁, setupEvents [cycles] plainAnswers (newThread 7) = .ok (true, w₁) ∧
      (DrainsOwnRing genericEnv 4095 w₁ ∧ UnmapsOwnRings 1 w₁ ↔ [cycles] = []) :=
  setupEvents_reachable_iff genericEnv 4095 [cycles] plainAnswers plainFd plainBuf
    (plainAnswers_succeed 1) (newThread 7) rfl

/-- One event: the rings of its first seven CPUs are neither drained nor unmapped. -/
theorem one_event_loses_rings :
    ∃ w₁, setupEvents [cycles] plainAnswers (newThread 7) = .ok (true, w₁) ∧
      ¬ DrainsOwnRing genericEnv 4095 w₁ ∧ ¬ UnmapsOwnRings 1 w₁ := by
  have hsys := plainAnswers_succeed [cycles].length
  obtain ⟨w₁, hsetup, hafter, -⟩ := setupEvents_succeeds hsys (w := newThread 7) rfl
  refine ⟨w₁, hsetup, fun hdrains => ?_, fun hunmaps => ?_⟩
  · exact absurd ((drainsOwnRing_iff hsys hafter genericEnv 4095).mp hdrains) (by simp)
  · exact absurd ((unmapsOwnRings_iff hsys hafter).mp hunmaps) (by simp)

end DroidPerf
