import DroidPerf.AttachSound

/-!
# DroidPerf.EventListSound

What `process_event_list` makes of a list of events.

An event is `client::event` or `client::event@rate`. Without a rate the whole text becomes the
name. With one, the character before the `@` is read as a number, the rate is kept modulo 2^32,
and a fifth event finds no place among the watched metrics (`readsEvents_iff`).

The text of an event is taken apart by positions, which are computed here once from the lengths
of its parts: `parseEvent_of_some` is what the code reads of an event with a rate. Over the
list, the invariant `Registered` says which entries and metrics there are for the events read
so far.
-/

namespace DroidPerf

open Text

/-! ### Positions in a text

What the library functions return on a text that is known to be put together from parts. -/

/-- A text is found where it begins, if its first character does not come before. -/
theorem findText_append {c : Char} {cs s t : List Char} (hs : c ∉ s) (hlen : s.length < npos) :
    findText (c :: cs) (s ++ (c :: cs ++ t)) = s.length := by
  induction s with
  | nil =>
      rw [List.nil_append, List.cons_append, findText, if_pos ⟨t, rfl⟩]
      rfl
  | cons d s ih =>
      have hne : ¬ c :: cs <+: d :: (s ++ (c :: cs ++ t)) := by
        intro hprefix
        obtain ⟨rfl, -⟩ := List.cons_prefix_cons.mp hprefix
        exact hs List.mem_cons_self
      have ih := ih (fun h => hs (List.mem_cons_of_mem _ h)) (Nat.lt_of_succ_lt hlen)
      have hpos : s.length ≠ npos := (Nat.lt_of_succ_lt hlen).ne
      rw [List.cons_append, findText, if_neg hne]
      dsimp only
      rw [ih, if_neg hpos, List.length_cons]

/-- A text whose first character is missing is not found. -/
theorem findText_of_notMem {c : Char} {cs s : List Char} (hs : c ∉ s) :
    findText (c :: cs) s = npos := by
  induction s with
  | nil => rfl
  | cons d s ih =>
      have hne : ¬ c :: cs <+: d :: s := by
        intro hprefix
        obtain ⟨rfl, -⟩ := List.cons_prefix_cons.mp hprefix
        exact hs List.mem_cons_self
      rw [findText, if_neg hne]
      dsimp only
      rw [ih fun h => hs (List.mem_cons_of_mem _ h), if_pos rfl]

/-- The part of a text behind a front is the rest. -/
theorem substr_append (s t : List Char) {n : Nat} (hn : t.length ≤ n) :
    substr (s ++ t) s.length n = .ok t := by
  unfold substr
  rw [if_neg (by simp), List.drop_left, List.take_of_length_le hn]

/-- A part in the middle of a text. -/
theorem substr_append_take (s t r : List Char) :
    substr (s ++ (t ++ r)) s.length t.length = .ok t := by
  unfold substr
  rw [if_neg (by simp), List.drop_left, List.take_left]

/-! ### Numbers

`std::stoull` on digits, and on the single character before the `@`. -/

/-- Digits are read as their number. -/
theorem readNat_digits {s : List Char} (hs : ∀ c ∈ s, c.isDigit = true) (hne : s ≠ []) :
    readNat s = some (Nat.ofDigitChars 10 s 0) := by
  have hunderscore : '_' ∉ s := fun h => absurd (hs _ h) (by decide)
  unfold readNat
  rw [List.splitOn_eq_singleton hunderscore]
  simpa using ⟨hne, hs⟩

/-- Digits are read by `std::stoull` if their number fits. -/
theorem stoull_digits {s : List Char} (hs : ∀ c ∈ s, c.isDigit = true) (hne : s ≠ [])
    (hlt : Nat.ofDigitChars 10 s 0 < 2 ^ 64) : stoull s = .ok (Nat.ofDigitChars 10 s 0) := by
  obtain ⟨c, rest, rfl⟩ := List.exists_cons_of_ne_nil hne
  have hc : c.isDigit = true := hs c List.mem_cons_self
  have hminus : c ≠ '-' := fun h => absurd hc (h ▸ by decide)
  have hplus : c ≠ '+' := fun h => absurd hc (h ▸ by decide)
  have hall : (c :: rest).takeWhile Char.isDigit = c :: rest := List.takeWhile_eq_self_iff.mpr hs
  unfold stoull
  rw [CText.dropWhile_isSpace_digits hs]
  simp only [List.head?_cons, Option.some.injEq, hminus, hplus, or_self, if_false, hall,
    readNat_digits hs hne, hlt, if_true]

/-- One character is a number when it is a digit. -/
theorem stoull_singleton (c : Char) : (∃ v, stoull [c] = .ok v) ↔ c.isDigit = true := by
  constructor
  · rintro ⟨v, hv⟩
    by_contra hc
    have hdigit : c.isDigit = false := by simpa using hc
    unfold stoull at hv
    by_cases hblank : CText.isSpace c = true
    · simp [hblank, readNat] at hv
    · -- neither white space nor a sign alone is a number
      by_cases hsign : c = '-' ∨ c = '+'
      · rcases hsign with rfl | rfl
        · simp [CText.isSpace, readNat] at hv
        · simp [CText.isSpace, readNat] at hv
      · obtain ⟨hminus, hplus⟩ := not_or.mp hsign
        simp [hblank, hminus, hplus, hdigit, readNat] at hv
  · intro hc
    refine ⟨_, stoull_digits (by simpa using hc) (List.cons_ne_nil _ _) ?_⟩
    rw [Nat.ofDigitChars_cons, Nat.ofDigitChars_nil]
    have hlt := (digitChar_toNat hc).1
    omega

/-! ### Events

The parts of an event are given, the text is computed. `Valid` says that the separators are
found where they were put. -/

/-- An event of the option string. -/
structure EventSpec where
  client : List Char
  event : List Char
  rate : Option (List Char)
  deriving DecidableEq, Repr

namespace EventSpec

/-- `client::event` or `client::event@rate`. -/
def text (e : EventSpec) : List Char :=
  match e.rate with
  | none => e.client ++ ("::".toList ++ e.event)
  | some rate => e.client ++ ("::".toList ++ e.event) ++ '@' :: rate

/-- The value of the rate. -/
def threshold (e : EventSpec) : Nat :=
  match e.rate with
  | none => 0
  | some rate => Nat.ofDigitChars 10 rate 0

/-- The separators are where they should be, and the rate is a number below 2^64. A
`std::string` is shorter than `npos`. -/
structure Valid (e : EventSpec) : Prop where
  client : ':' ∉ e.client ∧ '@' ∉ e.client
  event : '@' ∉ e.event
  rate : ∀ rate, e.rate = some rate → rate ≠ [] ∧ ∀ c ∈ rate, c.isDigit = true
  threshold_lt : e.threshold < 2 ^ 64
  length_lt : e.text.length < npos

/-- There is a rate, it fits 32 bits, and a digit stands before the `@`. -/
def Readable (e : EventSpec) : Prop :=
  e.rate.isSome = true ∧ e.threshold < 2 ^ 32 ∧ (e.event.getLast?.any Char.isDigit) = true

instance (e : EventSpec) : Decidable e.Readable := inferInstanceAs (Decidable (_ ∧ _ ∧ _))

section Parse

variable {e : EventSpec}

/-- The colons come behind the client. -/
theorem findText_client (he : e.Valid) {t : List Char}
    (htext : e.text = e.client ++ ':' :: ':' :: t) :
    findText "::".toList e.text = e.client.length := by
  have hlen := he.length_lt
  rw [htext, List.length_append] at hlen
  rw [htext]
  show findText (':' :: [':']) (e.client ++ (':' :: [':'] ++ t)) = _
  exact findText_append he.client.1 (by omega)

/-- What is before them is the client. -/
theorem substr_client {t : List Char} (htext : e.text = e.client ++ t) :
    substr e.text 0 e.client.length = .ok e.client := by
  rw [htext]
  exact substr_append_take [] e.client t

/-- An event without a rate is its own name. -/
theorem parseEvent_of_none (he : e.Valid) (hrate : e.rate = none) :
    parseEvent e.text = .ok ⟨toUpper e.client, e.text, 0⟩ := by
  have htext : e.text = e.client ++ ':' :: ':' :: e.event := by
    unfold text
    rw [hrate]
    rfl
  have hat : '@' ∉ e.text := by
    rw [htext]
    simp [he.client.2, he.event]
  have hpos2 : findText "@".toList e.text = npos := by
    show findText ['@'] e.text = npos
    exact findText_of_notMem hat
  unfold parseEvent
  simp only [findText_client he htext, hpos2, substr_client htext, ok_bind, ne_eq, not_true,
    if_false]
  rfl

section Rate

variable {rate : List Char} (hrate : e.rate = some rate)
include hrate

/-- The text with its three separators. -/
theorem text_of_some : e.text = e.client ++ ':' :: ':' :: (e.event ++ '@' :: rate) := by
  unfold text
  rw [hrate]
  simp

/-- The text is shorter than `npos`. -/
theorem length_of_some (he : e.Valid) :
    e.client.length + 2 + e.event.length + 1 + rate.length < npos := by
  have hlen := he.length_lt
  rw [text_of_some hrate] at hlen
  simp only [List.length_append, List.length_cons] at hlen
  omega

/-- The `@` comes behind the event. -/
theorem findText_at (he : e.Valid) :
    findText "@".toList e.text = e.client.length + 2 + e.event.length := by
  have hlen := length_of_some hrate he
  have hsplit : e.text = (e.client ++ ':' :: ':' :: e.event) ++ ('@' :: [] ++ rate) := by
    rw [text_of_some hrate]
    simp
  have hbefore : (e.client ++ ':' :: ':' :: e.event).length =
      e.client.length + 2 + e.event.length := by
    simp
    omega
  have hat : '@' ∉ e.client ++ ':' :: ':' :: e.event := by simp [he.client.2, he.event]
  show findText ['@'] e.text = _
  rw [hsplit, findText_append hat (by omega), hbefore]

/-- Between the colons and the `@` there is the event. -/
theorem substr_event : substr e.text (e.client.length + 2) e.event.length = .ok e.event := by
  have hsplit : e.text = (e.client ++ [':', ':']) ++ (e.event ++ '@' :: rate) := by
    rw [text_of_some hrate]
    simp
  have hbefore : (e.client ++ [':', ':']).length = e.client.length + 2 := by simp
  rw [hsplit, ← hbefore]
  exact substr_append_take _ _ _

/-- Behind the `@` there is the rate. -/
theorem substr_rate (he : e.Valid) :
    substr e.text (e.client.length + 2 + e.event.length + 1) npos = .ok rate := by
  have hlen := length_of_some hrate he
  have hsplit : e.text = (e.client ++ ':' :: ':' :: (e.event ++ ['@'])) ++ rate := by
    rw [text_of_some hrate]
    simp
  have hbefore : (e.client ++ ':' :: ':' :: (e.event ++ ['@'])).length =
      e.client.length + 2 + e.event.length + 1 := by
    simp
    omega
  rw [hsplit, ← hbefore]
  exact substr_append _ _ (by omega)

/-- The character before the `@`: the last one of the event, or a colon. -/
theorem substr_level : substr e.text (e.client.length + 2 + e.event.length - 1) 1 =
    .ok [e.event.getLast?.getD ':'] := by
  rcases List.eq_nil_or_concat e.event with hnil | ⟨init, c, hconcat⟩
  · have hsplit : e.text = (e.client ++ [':']) ++ ([':'] ++ '@' :: rate) := by
      rw [text_of_some hrate, hnil]
      simp
    have hbefore : (e.client ++ [':']).length = e.client.length + 2 + e.event.length - 1 := by
      simp [hnil]
    rw [hsplit, ← hbefore, hnil]
    exact substr_append_take _ [':'] _
  · have hsplit : e.text = (e.client ++ ':' :: ':' :: init) ++ ([c] ++ '@' :: rate) := by
      rw [text_of_some hrate, hconcat]
      simp
    have hbefore : (e.client ++ ':' :: ':' :: init).length =
        e.client.length + 2 + e.event.length - 1 := by
      simp [hconcat]
      omega
    rw [hsplit, ← hbefore, hconcat]
    simpa using substr_append_take (e.client ++ ':' :: ':' :: init) [c] ('@' :: rate)

/-- The rate is read as its value. -/
theorem stoull_rate (he : e.Valid) : stoull rate = .ok e.threshold := by
  obtain ⟨hne, hdigits⟩ := he.rate rate hrate
  have hlt := he.threshold_lt
  unfold threshold at hlt ⊢
  rw [hrate] at hlt ⊢
  exact stoull_digits hdigits hne hlt

/-- An event with a rate, when what stands before the `@` can be read. -/
theorem parseEvent_of_some (he : e.Valid) :
    parseEvent e.text =
      (stoull [e.event.getLast?.getD ':'] >>= fun _ =>
        .ok ⟨toUpper e.client, e.event, e.threshold % 2 ^ 32⟩) := by
  have hlen := length_of_some hrate he
  have hnpos : npos = 2 ^ 64 - 1 := rfl
  have hadd : add64 e.client.length 2 = e.client.length + 2 := by
    unfold add64
    omega
  have hsub : sub64 (sub64 (e.client.length + 2 + e.event.length) e.client.length) 2 =
      e.event.length := by
    unfold sub64
    omega
  have hsub1 : sub64 (e.client.length + 2 + e.event.length) 1 =
      e.client.length + 2 + e.event.length - 1 := by
    unfold sub64
    omega
  -- none of the differences wraps around
  have hfound : e.client.length + 2 + e.event.length ≠ npos := by omega
  unfold parseEvent
  simp only [findText_client he (text_of_some hrate), findText_at hrate he,
    substr_client (text_of_some hrate), ok_bind, hadd, hsub, substr_event hrate,
    substr_rate hrate he, stoull_rate hrate he, hsub1, substr_level hrate]
  rw [if_pos hfound]
  rfl

end Rate

/-- What is read of an event with a digit before the `@`. -/
def parsed (e : EventSpec) : ParsedEvent :=
  match e.rate with
  | none => ⟨toUpper e.client, e.text, 0⟩
  | some _ => ⟨toUpper e.client, e.event, e.threshold % 2 ^ 32⟩

/-- Whatever is read of an event is this. -/
theorem parseEvent_eq (he : e.Valid) {p : ParsedEvent} (h : parseEvent e.text = .ok p) :
    p = e.parsed := by
  unfold parsed
  cases hrate : e.rate with
  | none =>
      rw [parseEvent_of_none he hrate] at h
      exact (Except.ok.inj h).symm
  | some rate =>
      rw [parseEvent_of_some hrate he] at h
      obtain ⟨v, -, h⟩ := bind_eq_ok.mp h
      exact (Except.ok.inj h).symm

/-- An event is read as what it says exactly when it is readable. -/
theorem parse_iff (he : e.Valid) :
    (∃ p, parseEvent e.text = .ok p ∧ p.name = e.event ∧ p.threshold = e.threshold) ↔
      e.Readable := by
  unfold Readable
  cases hrate : e.rate with
  | none =>
      -- without a rate the name has the client in it
      have htext : e.text ≠ e.event := by
        intro heq
        have hlen := congrArg List.length heq
        unfold text at hlen
        rw [hrate] at hlen
        simp at hlen
        omega
      rw [parseEvent_of_none he hrate]
      simp [htext]
  | some rate =>
      have hlevel : (∃ v, stoull [e.event.getLast?.getD ':'] = .ok v) ↔
          e.event.getLast?.any Char.isDigit = true := by
        rw [stoull_singleton]
        cases e.event.getLast? with
        | none => simp
        | some c => simp
      rw [parseEvent_of_some hrate he, ← hlevel]
      constructor
      · rintro ⟨p, hp, -, hthreshold⟩
        obtain ⟨v, hv, hp⟩ := bind_eq_ok.mp hp
        cases hp
        have hkept : e.threshold % 2 ^ 32 = e.threshold := hthreshold
        exact ⟨rfl, by omega, v, hv⟩
      · rintro ⟨-, hlt, v, hv⟩
        refine ⟨_, bind_eq_ok.mpr ⟨v, hv, rfl⟩, rfl, ?_⟩
        exact Nat.mod_eq_of_lt hlt

end Parse

end EventSpec

/-! ### The list

Each event adds an entry and three metrics, at three times the position of the entry. -/

/-- The entry of an event, with its three metrics. -/
structure RegisteredAs (s : AttachState) (i : Nat) (client name : List Char) (threshold : Nat) :
    Prop where
  entry : ∃ info, s.eventInfo[i]? = some info ∧ info.name = String.ofList name ∧
    info.threshold = threshold ∧ info.metricId1 = 3 * i ∧ info.metricId2 = 3 * i + 1 ∧
    info.metricId3 = 3 * i + 2
  metrics : ∀ j < 3, s.metricInfoList[3 * i + j]? = some ⟨client, name, threshold⟩

/-- A first call returns, and every event is registered as what it says. -/
def ReadsEvents (events : List EventSpec) : Prop :=
  ∃ s, processEventList newProcess (events.map EventSpec.text) = .ok s ∧
    s.eventInfo.length = events.length ∧
    ∀ (i : Nat) e, events[i]? = some e → RegisteredAs s i (toUpper e.client) e.event e.threshold

/-- The entries and the metrics are those of the events read so far. -/
structure Registered (s : AttachState) (ps : List ParsedEvent) : Prop where
  entries : s.eventInfo.length = ps.length
  metrics : s.metricInfoList.length = 3 * ps.length
  event : ∀ (i : Nat) p, ps[i]? = some p → RegisteredAs s i p.clientName p.name p.threshold

/-- Before the first event nothing is registered. -/
theorem registered_start : Registered { newProcess with eventInfo := [] } [] :=
  ⟨rfl, rfl, fun _ _ h => by simp at h⟩

/-- An event adds an entry and three metrics. -/
theorem addEvent_lists {s s' : AttachState} {p : ParsedEvent} (h : addEvent s p = .ok s') :
    ∃ info, s'.eventInfo = s.eventInfo ++ [info] ∧
      s'.metricInfoList = s.metricInfoList ++
        List.replicate 3 ⟨p.clientName, p.name, p.threshold⟩ ∧
      info.name = String.ofList p.name ∧ info.threshold = p.threshold ∧
      info.metricId1 = (s.metricInfoList.length : Int) ∧
      info.metricId2 = (s.metricInfoList.length : Int) + 1 ∧
      info.metricId3 = (s.metricInfoList.length : Int) + 2 := by
  unfold addEvent setupWatermarkMetric registerMetric at h
  dsimp only at h
  split at h
  · cases h
  · cases h
    exact ⟨_, rfl, by simp [List.replicate], rfl, rfl, rfl, by simp, by simp⟩

/-- What is registered stays when events are added. -/
theorem RegisteredAs.mono {s s' : AttachState} {i threshold : Nat} {client name : List Char}
    (h : RegisteredAs s i client name threshold) (hentries : s.eventInfo <+: s'.eventInfo)
    (hmetrics : s.metricInfoList <+: s'.metricInfoList) :
    RegisteredAs s' i client name threshold := by
  obtain ⟨info, hinfo, hrest⟩ := h.entry
  exact ⟨⟨info, Intern.getElem?_of_isPrefix hentries hinfo, hrest⟩,
    fun j hj => Intern.getElem?_of_isPrefix hmetrics (h.metrics j hj)⟩

/-- The step lemma: one event more. -/
theorem Registered.addEvent {s s' : AttachState} {ps : List ParsedEvent} {p : ParsedEvent}
    (h : Registered s ps) (hadd : addEvent s p = .ok s') : Registered s' (ps ++ [p]) := by
  obtain ⟨info, hentries, hmetrics, hname, hthreshold, hid1, hid2, hid3⟩ := addEvent_lists hadd
  have hsize := h.metrics
  refine ⟨?_, ?_, fun i q hq => ?_⟩
  · rw [hentries, List.length_append, List.length_append, h.entries]
    rfl
  · rw [hmetrics, List.length_append, List.length_append, hsize, List.length_replicate]
    exact (Nat.mul_succ 3 _).symm
  · rcases Intern.getElem?_concat.mp hq with hq | ⟨rfl, rfl⟩
    · exact (h.event i q hq).mono (hentries ▸ List.prefix_append _ _)
        (hmetrics ▸ List.prefix_append _ _)
    · refine ⟨⟨info, ?_, hname, hthreshold, by omega, by omega, by omega⟩, fun j hj => ?_⟩
      · rw [hentries, ← h.entries]
        exact List.getElem?_concat_length
      · rw [hmetrics, ← hsize, List.getElem?_append_right (Nat.le_add_right _ _),
          Nat.add_sub_cancel_left, List.getElem?_replicate, if_pos hj]

/-- The run lemma: every event that is taken is read and registered. -/
theorem Registered.foldlM {events : List (List Char)} {s s' : AttachState} {ps : List ParsedEvent}
    (h : Registered s ps) (hrun : events.foldlM processEvent s = .ok s') :
    ∃ qs, List.Forall₂ (fun event q => parseEvent event = .ok q) events qs ∧
      Registered s' (ps ++ qs) := by
  induction events generalizing s ps with
  | nil =>
      cases hrun
      exact ⟨[], .nil, by rwa [List.append_nil]⟩
  | cons event events ih =>
      rw [List.foldlM_cons] at hrun
      obtain ⟨s₁, hstep, hrun⟩ := bind_eq_ok.mp hrun
      obtain ⟨p, hp, hadd⟩ := bind_eq_ok.mp hstep
      obtain ⟨qs, hqs, hregistered⟩ := ih (h.addEvent hadd) hrun
      refine ⟨p :: qs, .cons hp hqs, ?_⟩
      rwa [List.append_assoc] at hregistered

/-- What a first call registers, event by event. -/
theorem processEventList_registered {events : List EventSpec} {s : AttachState}
    (h : processEventList newProcess (events.map EventSpec.text) = .ok s) :
    s.eventInfo.length = events.length ∧
      ∀ (i : Nat) e, events[i]? = some e → ∃ p, parseEvent e.text = .ok p ∧
        RegisteredAs s i p.clientName p.name p.threshold := by
  obtain ⟨-, -, hrun⟩ := bind_eq_ok.mp h
  obtain ⟨ps, hps, hregistered⟩ := registered_start.foldlM hrun
  rw [List.nil_append] at hregistered
  obtain ⟨hlength, hparsed⟩ := List.forall₂_iff_get.mp hps
  rw [List.length_map] at hlength
  refine ⟨hregistered.entries.trans hlength.symm, fun i e he => ?_⟩
  obtain ⟨hi, rfl⟩ := List.getElem?_eq_some_iff.mp he
  have hp := hparsed i (by simpa using hi) (hlength ▸ hi)
  refine ⟨ps.get ⟨i, hlength ▸ hi⟩, by simpa using hp, hregistered.event i _ ?_⟩
  exact List.getElem?_eq_getElem _

/-- If all events are registered as what they say, each can be read. -/
theorem ReadsEvents.readable {events : List EventSpec} (h : ReadsEvents events)
    (hvalid : ∀ e ∈ events, e.Valid) : ∀ e ∈ events, e.Readable := by
  obtain ⟨s, hrun, -, hreg⟩ := h
  intro e he
  obtain ⟨i, hi⟩ := List.getElem?_of_mem he
  obtain ⟨p, hp, hentry⟩ := (processEventList_registered hrun).2 i e hi
  -- both are the metric that is registered first for the event
  have hsame := (hentry.metrics 0 (by decide)).symm.trans ((hreg i e hi).metrics 0 (by decide))
  cases p
  cases hsame
  exact (EventSpec.parse_iff (hvalid e he)).mp ⟨_, hp, rfl, rfl⟩

/-- If all events are read, there are no more of them than places. -/
theorem ReadsEvents.length_le {events : List EventSpec} (h : ReadsEvents events) :
    events.length ≤ numWatermarkMetrics := by
  obtain ⟨s, hrun, -⟩ := h
  obtain ⟨-, -, hfold⟩ := bind_eq_ok.mp hrun
  have hfull := (foldlM_processEvent (parseEvent_of_foldlM hfold)
    (s := { newProcess with eventInfo := [] }) (Nat.zero_le _)).2
  have hempty : newProcess.curWatermarkId = 0 := rfl
  by_contra hover
  rw [hfull (by simp only [List.length_map, hempty]; omega)] at hfold
  cases hfold

/-- **The list of events.** A first call registers every event as what it says exactly when
there are at most four events, and each has a rate below 2^32 and a digit before its `@`. -/
theorem readsEvents_iff (events : List EventSpec) (hvalid : ∀ e ∈ events, e.Valid)
    (hlength : events.length ≤ maxNumEvents) :
    ReadsEvents events ↔ events.length ≤ numWatermarkMetrics ∧ ∀ e ∈ events, e.Readable := by
  constructor
  · exact fun h => ⟨h.length_le, h.readable hvalid⟩
  · rintro ⟨hle, hreadable⟩
    have hparse : ∀ event ∈ events.map EventSpec.text, ∃ p, parseEvent event = .ok p := by
      intro event hevent
      obtain ⟨e, he, rfl⟩ := List.mem_map.mp hevent
      obtain ⟨p, hp, -⟩ := (EventSpec.parse_iff (hvalid e he)).mpr (hreadable e he)
      exact ⟨p, hp⟩
    have hempty : newProcess.curWatermarkId = 0 := rfl
    obtain ⟨s, hfold, -⟩ := (foldlM_processEvent hparse
      (s := { newProcess with eventInfo := [] }) (Nat.zero_le _)).1
      (by simp only [List.length_map, hempty]; omega)
    have hassert : assert ((events.map EventSpec.text).length ≤ maxNumEvents) = .ok () := by
      rw [assert_eq_ok, decide_eq_true_iff, List.length_map]
      exact hlength
    have hrun : processEventList newProcess (events.map EventSpec.text) = .ok s :=
      bind_eq_ok.mpr ⟨(), hassert, hfold⟩
    obtain ⟨hentries, hregistered⟩ := processEventList_registered hrun
    refine ⟨s, hrun, hentries, fun i e hi => ?_⟩
    have he : e ∈ events := List.mem_of_getElem? hi
    obtain ⟨p, hp, hentry⟩ := hregistered i e hi
    obtain ⟨p', hp', hname, hthreshold⟩ :=
      (EventSpec.parse_iff (hvalid e he)).mpr (hreadable e he)
    obtain rfl : p = p' := Except.ok.inj (hp.symm.trans hp')
    have hclient : p.clientName = toUpper e.client := by
      rw [EventSpec.parseEvent_eq (hvalid e he) hp]
      unfold EventSpec.parsed
      split <;> rfl
    rw [hclient, hname, hthreshold] at hentry
    exact hentry

/-- The event of the readme. -/
def readmeEvent : EventSpec :=
  ⟨"Generic".toList, "CYCLES:precise=2".toList, some "100000000".toList⟩

theorem valid_readmeEvent : readmeEvent.Valid := by
  refine ⟨by decide, by decide, fun rate hrate => ?_, by decide, by decide⟩
  cases hrate
  exact ⟨by decide, List.all_eq_true.mp rfl⟩

theorem readsEvents_readme : ReadsEvents [readmeEvent] :=
  (readsEvents_iff _ (by simpa using valid_readmeEvent) (by decide)).mpr (by decide)

/-- The same event without its rate gets the name `Generic::CYCLES:precise=2`. -/
theorem event_without_rate_keeps_client :
    ¬ ReadsEvents [⟨"Generic".toList, "CYCLES:precise=2".toList, none⟩] := by
  intro h
  have hvalid : EventSpec.Valid ⟨"Generic".toList, "CYCLES:precise=2".toList, none⟩ :=
    ⟨by decide, by decide, nofun, by decide, by decide⟩
  have hreadable := h.readable (by simpa using hvalid) _ List.mem_cons_self
  exact absurd hreadable (by decide)

end DroidPerf
