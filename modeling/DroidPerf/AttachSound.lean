import DroidPerf.Attach
import DroidPerf.Lib.Intern

/-!
# DroidPerf.AttachSound

What is left of an attach when the agent is attached again.

The metrics, the watched metrics and the name of the client are only ever added to. The client
is always that of the first event of the first attach (`Attached`); every further attach writes
its name once more behind what is there.

`Kept` is what every step of an attach does to the tables, and it composes. The invariant
`Attached` has the number of attaches and of used places as parameters; one attach adds to both
(`Attached.profilerInit`) or fails for want of places, and `attach_succ` is the induction. What
is left for `attach_again_iff` is when a name written `n` times over is that name.
-/

namespace DroidPerf

open Text Intern

/-! ### Names of clients

The client of an event is upper case already when it is written, so that writing it again
changes nothing in it. -/

/-- The client of an event: what stands before the colons. -/
def clientOf (event : List Char) : List Char := event.take (findText "::".toList event)

/-- Text that is in upper case stays as it is. -/
theorem toUpper_toUpper (s : List Char) : toUpper (toUpper s) = toUpper s := by
  unfold toUpper
  rw [List.map_map]
  refine List.map_congr_left fun c _ => ?_
  simp only [Function.comp_apply]
  unfold Char.toUpper
  split
  · rw [dif_neg]
    grind
  · rfl

/-- An event that can be read names its client in upper case. -/
theorem parseEvent_clientName {event : List Char} {e : ParsedEvent}
    (h : parseEvent event = .ok e) : e.clientName = toUpper (clientOf event) := by
  unfold parseEvent at h
  obtain ⟨clientName, hclient, h⟩ := bind_eq_ok.mp h
  have heq : clientName = clientOf event := by
    unfold substr at hclient
    split at hclient
    · cases hclient
    · cases hclient
      rfl
  rw [← heq]
  dsimp only at h
  split at h
  · simp only [bind_eq_ok] at h
    obtain ⟨name, -, rate, -, threshold, -, level, -, precise, -, h⟩ := h
    cases h
    rfl
  · cases h
    rfl

/-! ### One attach

The loop over the events keeps what was there and uses up a place for each event. -/

/-- The metrics and the watched metrics that were there stay. -/
structure Kept (s s' : AttachState) : Prop where
  metrics : s.metricInfoList <+: s'.metricInfoList
  used : s.curWatermarkId ≤ s'.curWatermarkId
  watched : ∀ i < s.curWatermarkId, s'.pebsMetricId[i]? = s.pebsMetricId[i]?
  clientName : s'.clientName = s.clientName

/-- An attach that changes nothing keeps what was registered. -/
theorem Kept.refl (s : AttachState) : Kept s s :=
  ⟨List.prefix_refl _, le_rfl, fun _ _ => rfl, rfl⟩

/-- What one step keeps and the next one keeps is kept by both. -/
theorem Kept.trans {s s₁ s₂ : AttachState} (h : Kept s s₁) (h' : Kept s₁ s₂) : Kept s s₂ where
  metrics := h.metrics.trans h'.metrics
  used := h.used.trans h'.used
  watched i hi := (h'.watched i (hi.trans_le h.used)).trans (h.watched i hi)
  clientName := h'.clientName.trans h.clientName

/-- Without a place left the assertion fails. -/
theorem addEvent_full {s : AttachState} (h : s.curWatermarkId = numWatermarkMetrics)
    (e : ParsedEvent) : addEvent s e = .error .assertion := by
  simp [addEvent, registerMetric, setupWatermarkMetric, h]

/-- With a place left, the event's first metric is watched there. -/
theorem addEvent_spec {s : AttachState} (h : s.curWatermarkId < numWatermarkMetrics)
    (e : ParsedEvent) : ∃ s', addEvent s e = .ok s' ∧ Kept s s' ∧
      s'.curWatermarkId = s.curWatermarkId + 1 ∧
      s'.pebsMetricId = s.pebsMetricId.set s.curWatermarkId s.metricInfoList.length ∧
      ∃ info, s'.metricInfoList[s.metricInfoList.length]? = some info ∧
        info.clientName = e.clientName := by
  simp only [addEvent, registerMetric, setupWatermarkMetric, h.ne, if_false]
  refine ⟨_, rfl, ⟨?_, Nat.le_succ _, fun i hi => ?_, rfl⟩, rfl, rfl, ?_⟩
  · simp only [List.append_assoc]
    exact List.prefix_append _ _
  · exact List.getElem?_set_ne (by omega)
  · simp

/-- The loop over the events, when they can be read: they need places among the watched
metrics. -/
theorem foldlM_processEvent {events : List (List Char)}
    (hparse : ∀ event ∈ events, ∃ e, parseEvent event = .ok e) {s : AttachState}
    (hcur : s.curWatermarkId ≤ numWatermarkMetrics) :
    (s.curWatermarkId + events.length ≤ numWatermarkMetrics → ∃ s',
      events.foldlM processEvent s = .ok s' ∧ Kept s s' ∧
        s'.curWatermarkId = s.curWatermarkId + events.length) ∧
    (numWatermarkMetrics < s.curWatermarkId + events.length →
      events.foldlM processEvent s = .error .assertion) := by
  induction events generalizing s with
  | nil =>
      refine ⟨fun _ => ⟨s, rfl, .refl s, rfl⟩, fun hlt => ?_⟩
      exact absurd hlt (by simpa using hcur)
  | cons event events ih =>
      rw [List.forall_mem_cons] at hparse
      obtain ⟨e, he⟩ := hparse.1
      rw [List.foldlM_cons, List.length_cons]
      rcases Nat.lt_or_ge s.curWatermarkId numWatermarkMetrics with hlt | hge
      · -- a place is left for this event
        obtain ⟨s₁, hadd, hkept, hcur₁, -⟩ := addEvent_spec hlt e
        have hstep : processEvent s event = .ok s₁ := by simp [processEvent, he, hadd]
        obtain ⟨hfits, hfull⟩ := ih hparse.2 (s := s₁) (by omega)
        rw [hstep, ok_bind]
        refine ⟨fun hle => ?_, fun hover => hfull (by omega)⟩
        obtain ⟨s', hrest, hkept', hcur'⟩ := hfits (by omega)
        exact ⟨s', hrest, hkept.trans hkept', by omega⟩
      · have hstep : processEvent s event = .error .assertion := by
          simp [processEvent, he, addEvent_full (Nat.le_antisymm hcur hge)]
        rw [hstep]
        exact ⟨fun hle => absurd hle (by omega), fun _ => rfl⟩

/-- After `m` attaches: the first watched metric is that of the first event. -/
structure Attached (client : List Char) (m cur : Nat) (s : AttachState) : Prop where
  used : s.curWatermarkId = cur
  positive : 0 < cur
  watched : s.pebsMetricId[0]? = some 0
  first : ∃ info, s.metricInfoList[0]? = some info ∧ info.clientName = client
  written : s.clientName = (List.replicate m client).flatten

section

variable {client : List Char} {m cur : Nat} {s s' : AttachState}

/-- `GetClientName` asks for the first watched metric, which is that of the first event of all. -/
theorem Attached.getClientName (h : Attached client m cur s) :
    getClientName s = .ok client := by
  obtain ⟨info, hinfo, rfl⟩ := h.first
  obtain ⟨hpos, hzero⟩ := List.getElem?_eq_some_iff.mp h.watched
  have hfind : s.pebsMetricId.find? (fun metricId => metricId ≠ -1) = some 0 := by
    cases hlist : s.pebsMetricId with
    | nil => simp [hlist] at hpos
    | cons first rest =>
        have hfirst : first = 0 := by simpa [hlist] using hzero
        simp [hfirst]
  unfold DroidPerf.getClientName
  rw [hfind]
  simp [getMetricInfo, hinfo]

/-- What is only added to leaves the first event where it is. -/
theorem Attached.of_kept (h : Attached client m cur s) (hkept : Kept s s') :
    Attached client m s'.curWatermarkId s' where
  used := rfl
  positive := by
    have := hkept.used
    have := h.used
    have := h.positive
    omega
  watched := by
    rw [hkept.watched 0 (by rw [h.used]; exact h.positive)]
    exact h.watched
  first := by
    obtain ⟨info, hinfo, hclient⟩ := h.first
    exact ⟨info, getElem?_of_isPrefix hkept.metrics hinfo, hclient⟩
  written := hkept.clientName.trans h.written

/-- The name of the client is written once more. -/
theorem Attached.profilerInit (h : Attached client m cur s) (hupper : toUpper client = client)
    {events : List (List Char)} (hlength : events.length ≤ numWatermarkMetrics)
    (hparse : ∀ event ∈ events, ∃ e, parseEvent event = .ok e)
    (hcur : cur ≤ numWatermarkMetrics) :
    (cur + events.length ≤ numWatermarkMetrics → ∃ s',
      profilerInit s events = .ok s' ∧ Attached client (m + 1) (cur + events.length) s') ∧
    (numWatermarkMetrics < cur + events.length →
      profilerInit s events = .error .assertion) := by
  obtain rfl := h.used
  have hassert : assert (events.length ≤ maxNumEvents) = .ok () := by
    rw [assert_eq_ok, decide_eq_true_iff]
    exact hlength.trans (by decide)
  have hreset : Kept s { s with eventInfo := [] } :=
    ⟨List.prefix_refl _, le_rfl, fun _ _ => rfl, rfl⟩
  obtain ⟨hfits, hfull⟩ := foldlM_processEvent hparse (s := { s with eventInfo := [] }) hcur
  unfold DroidPerf.profilerInit processEventList
  rw [hassert, ok_bind]
  -- the events find their places, or they do not
  refine ⟨fun hle => ?_, fun hover => ?_⟩
  · obtain ⟨s₁, hrun, hkept, hused⟩ := hfits hle
    have hattached := h.of_kept (hreset.trans hkept)
    rw [hrun, ok_bind, hattached.getClientName, ok_bind, hupper]
    refine ⟨_, rfl, hused, hattached.positive.trans_eq hused, hattached.watched,
      hattached.first, ?_⟩
    rw [List.replicate_succ', List.flatten_append]
    simp [hattached.written]
  · rw [hfull hover]
    rfl

/-- When the loop returns, every event could be read. -/
theorem parseEvent_of_foldlM {events : List (List Char)}
    (h : events.foldlM processEvent s = .ok s') :
    ∀ event ∈ events, ∃ e, parseEvent event = .ok e := by
  induction events generalizing s with
  | nil => simp
  | cons event events ih =>
      rw [List.foldlM_cons] at h
      obtain ⟨s₁, hstep, hrest⟩ := bind_eq_ok.mp h
      obtain ⟨e, he, -⟩ := bind_eq_ok.mp hstep
      exact List.forall_mem_cons.mpr ⟨⟨e, he⟩, ih hrest⟩

/-- The metrics of the first event are the first ones of a new process. -/
theorem attached_first {first : List Char} {rest : List (List Char)}
    (h : DroidPerf.profilerInit newProcess (first :: rest) = .ok s) :
    Attached (toUpper (clientOf first)) 1 (rest.length + 1) s ∧
      rest.length + 1 ≤ numWatermarkMetrics ∧
      ∀ event ∈ first :: rest, ∃ e, parseEvent event = .ok e := by
  obtain ⟨s₂, hlist, h⟩ := bind_eq_ok.mp h
  obtain ⟨-, -, hrun⟩ := bind_eq_ok.mp hlist
  have hparse := parseEvent_of_foldlM hrun
  obtain ⟨e, he⟩ := hparse first List.mem_cons_self
  rw [List.foldlM_cons] at hrun
  obtain ⟨s₁, hadd, hkept₁, hused₁, hpebs, info, hinfo, hclient⟩ :=
    addEvent_spec (s := newProcess) (by decide) e
  have hfirst : Attached (toUpper (clientOf first)) 0 s₁.curWatermarkId s₁ :=
    ⟨rfl, hused₁ ▸ Nat.succ_pos _, by rw [hpebs]; rfl,
      ⟨info, hinfo, hclient.trans (parseEvent_clientName he)⟩, hkept₁.clientName⟩
  have hstep : processEvent newProcess first = .ok s₁ := by simp [processEvent, he, hadd]
  obtain ⟨s', hs', hrest⟩ := bind_eq_ok.mp hrun
  obtain rfl : s₁ = s' := Except.ok.inj (hstep.symm.trans hs')
  obtain ⟨hfits, hfull⟩ := foldlM_processEvent
    (fun event hmem => hparse event (List.mem_cons_of_mem _ hmem)) (s := s₁)
    (by rw [hused₁]; decide)
  -- the first attach returned, so its events found their places
  have hle : s₁.curWatermarkId + rest.length ≤ numWatermarkMetrics := by
    by_contra hover
    rw [hfull (by omega)] at hrest
    cases hrest
  obtain ⟨s₃, hrest', hkept, hused⟩ := hfits hle
  obtain rfl : s₃ = s₂ := Except.ok.inj (hrest'.symm.trans hrest)
  have hattached := hfirst.of_kept hkept
  have hcount : s₃.curWatermarkId = rest.length + 1 := by
    rw [hused, hused₁, Nat.add_comm]
    rfl
  rw [hattached.getClientName, ok_bind] at h
  cases h
  refine ⟨⟨hcount, Nat.succ_pos _, hattached.watched, hattached.first, ?_⟩, by omega, hparse⟩
  simp [hattached.written, toUpper_toUpper]

end

/-! ### Several attaches

All attaches have the same options. That the first one was accepted says that the events can be
read and find places; the later ones can fail only for want of places. -/

section

variable {arg first : List Char} {rest : List (List Char)} {s₁ : AttachState}

/-- The run lemma: every attach takes its places among the watched metrics and writes the
name of the client, until the places are used up. -/
theorem attach_succ (htokens : tokenize ',' arg = first :: rest)
    (haccepted : jvmInit arg newProcess = .ok s₁) (n : Nat) :
    ((n + 1) * (rest.length + 1) ≤ numWatermarkMetrics → ∃ s, attach arg (n + 1) = .ok s ∧
      Attached (toUpper (clientOf first)) (n + 1) ((n + 1) * (rest.length + 1)) s) ∧
    (numWatermarkMetrics < (n + 1) * (rest.length + 1) →
      attach arg (n + 1) = .error .assertion) := by
  unfold jvmInit at haccepted
  rw [htokens] at haccepted
  obtain ⟨hattached, hlength, hparse⟩ := attached_first haccepted
  induction n with
  | zero =>
      have hrun : attach arg 1 = .ok s₁ := by
        simp only [attach, ok_bind, jvmInit, htokens, haccepted]
      refine ⟨fun _ => ⟨s₁, hrun, ?_⟩, fun hover => absurd hover (by omega)⟩
      rw [Nat.zero_add, Nat.one_mul]
      exact hattached
  | succ n ih =>
      obtain ⟨hfits, hfull⟩ := ih
      have hmul : (n + 1 + 1) * (rest.length + 1) =
          (n + 1) * (rest.length + 1) + (rest.length + 1) := Nat.succ_mul _ _
      rw [attach, hmul]
      -- the attach before failed, or it left so many places
      rcases Nat.lt_or_ge numWatermarkMetrics ((n + 1) * (rest.length + 1)) with hover | hle
      · rw [hfull hover]
        exact ⟨fun h => absurd h (by omega), fun _ => rfl⟩
      · obtain ⟨s, hrun, hs⟩ := hfits hle
        rw [hrun, ok_bind, jvmInit, htokens]
        exact hs.profilerInit (toUpper_toUpper _) (by simpa using hlength) hparse hle

/-- A name written several times over is another name, unless it is empty. -/
theorem flatten_replicate_eq_iff {α : Type} {l : List α} {n : Nat} :
    (List.replicate n l).flatten = l ↔ n = 1 ∨ l = [] := by
  refine ⟨fun h => ?_, ?_⟩
  · rcases List.eq_nil_or_concat l with hnil | ⟨_, _, hconcat⟩
    · exact .inr hnil
    · have hlength := congrArg List.length h
      have hpos : 0 < l.length := by simp [hconcat]
      rw [List.length_flatten, List.map_replicate, List.sum_replicate_nat] at hlength
      exact .inl (Nat.eq_of_mul_eq_mul_right hpos (by omega))
  · rintro (rfl | rfl)
    · simp
    · simp

/-- **Attaching again** is harmless when the first event names no client and the watched
metrics suffice for every attach. -/
theorem attach_again_iff (htokens : tokenize ',' arg = first :: rest)
    (haccepted : jvmInit arg newProcess = .ok s₁) {n : Nat} (hn : 0 < n) :
    (∃ s, attach arg n = .ok s ∧ s.clientName = s₁.clientName ∧
        s.clientName = toUpper (clientOf first)) ↔
      n = 1 ∨ clientOf first = [] ∧ n * (first :: rest).length ≤ numWatermarkMetrics := by
  obtain ⟨n, rfl⟩ := Nat.exists_eq_add_one.mpr hn
  obtain ⟨hfits, hfull⟩ := attach_succ htokens haccepted n
  have haccepted' := haccepted
  unfold jvmInit at haccepted'
  rw [htokens] at haccepted'
  obtain ⟨hattached, hlength, -⟩ := attached_first haccepted'
  have hclient : s₁.clientName = toUpper (clientOf first) := by simp [hattached.written]
  have hempty : toUpper (clientOf first) = [] ↔ clientOf first = [] := by simp [toUpper]
  simp only [hclient, and_self, List.length_cons, ← hempty]
  constructor
  · rintro ⟨s, hrun, hname⟩
    -- an attach that failed leaves no name
    have hle : (n + 1) * (rest.length + 1) ≤ numWatermarkMetrics := by
      by_contra hover
      rw [hfull (by omega)] at hrun
      cases hrun
    obtain ⟨s', hrun', hs'⟩ := hfits hle
    obtain rfl : s' = s := Except.ok.inj (hrun'.symm.trans hrun)
    rw [hs'.written, flatten_replicate_eq_iff] at hname
    exact hname.imp_right fun hnil => ⟨hnil, hle⟩
  · intro h
    have hle : (n + 1) * (rest.length + 1) ≤ numWatermarkMetrics := by
      rcases h with hone | ⟨-, hle⟩
      · rw [hone, Nat.one_mul]
        exact hlength
      · exact hle
    obtain ⟨s, hrun, hs⟩ := hfits hle
    refine ⟨s, hrun, ?_⟩
    rw [hs.written, flatten_replicate_eq_iff]
    exact h.imp_right And.left

/-- Three attaches that name an event and no client. -/
theorem attach_again_iff_anonymous : ∃ s₁,
    tokenize ',' "::CYCLES".toList = ["::CYCLES".toList] ∧
    jvmInit "::CYCLES".toList newProcess = .ok s₁ ∧ (0 : Nat) < 3 ∧
    ((∃ s, attach "::CYCLES".toList 3 = .ok s ∧ s.clientName = s₁.clientName ∧
        s.clientName = toUpper (clientOf "::CYCLES".toList)) ↔
      3 = 1 ∨ clientOf "::CYCLES".toList = [] ∧
        3 * ["::CYCLES".toList].length ≤ numWatermarkMetrics) :=
  have htokens : tokenize ',' "::CYCLES".toList = ["::CYCLES".toList] := by decide
  have haccepted : ∃ s₁, jvmInit "::CYCLES".toList newProcess = .ok s₁ := ⟨_, rfl⟩
  haccepted.elim fun s₁ h => ⟨s₁, htokens, h, by decide, attach_again_iff htokens h (by decide)⟩

/-- With the options of the readme, the name that the second attach leaves is none of a
client. -/
theorem attach_again_fails_readme :
    ¬ ∀ (arg first : List Char) (rest : List (List Char)) (s₁ : AttachState) (n : Nat),
      tokenize ',' arg = first :: rest → jvmInit arg newProcess = .ok s₁ → 0 < n →
        ∃ s, attach arg n = .ok s ∧ s.clientName = s₁.clientName ∧
          s.clientName = toUpper (clientOf first) := by
  intro h
  have hone : ∃ s₁, jvmInit "Generic::CYCLES:precise=2@100000000".toList newProcess = .ok s₁ :=
    ⟨_, rfl⟩
  have htwo : (attach "Generic::CYCLES:precise=2@100000000".toList 2).toOption.map
      AttachState.clientName = some "GENERICGENERIC".toList := by decide +kernel
  obtain ⟨s₁, hs₁⟩ := hone
  have htokens : tokenize ',' "Generic::CYCLES:precise=2@100000000".toList =
      ["Generic::CYCLES:precise=2@100000000".toList] := by decide +kernel
  obtain ⟨s, hs, -, hname⟩ := h _ _ _ s₁ 2 htokens hs₁ (by decide)
  rw [hs] at htwo
  have hwritten : s.clientName = "GENERICGENERIC".toList := Option.some.inj htwo
  exact absurd (hwritten.symm.trans hname) (by decide +kernel)

end

end DroidPerf
