import DroidPerf.Sections
import DroidPerf.ContextTreeSound
import DroidPerf.DecodeSound

/-!
# DroidPerf.SectionsSound

What the leaves of the access profile show.

All lines of a section share one context tree and one builder. The context of a leaf is written
by the first line whose call path goes through it, and that line may end there or go on
(`decodeLeaves_eq`). So a leaf keeps its object only if every line that can be first shows it
in full.

A section is followed from its lines to its calls (`traceCall_spec`, `traceCalls_spec`,
`sectionCalls_spec`: for every line a call that puts its call path into the tree), and from the
calls to the profile, where the first message for a context decides (`firstMsg_history`).
`accessProfile_leaves` puts both together.
-/

namespace DroidPerf

open Text

open DataBuilder

/-! ### The lines of a section

Lines without a bar are no lines of samples and are passed over, so a section is about the
others. -/

/-- A line with a metric, and the method map that it is read with. -/
structure TraceLine where
  methodMap : Int → Option MethodInfo
  trace : Trace

/-- The trace of a line that has a metric. -/
def traceOf (line : List Char) : Option Trace :=
  if " |".toList <:+: line then readTrace line else none

/-- The lines of a thread. -/
def ThreadFiles.lines (files : ThreadFiles) : List TraceLine :=
  files.methodMap.toList.flatMap fun methodMap =>
    (files.trace.filterMap traceOf).map (TraceLine.mk methodMap)

/-- The lines of all threads, in the order in which they are read. -/
def sectionLines (threads : List ThreadFiles) : List TraceLine :=
  threads.flatMap ThreadFiles.lines

/-- The methods of a line are known, and its numbers fit the fields they are stored in. -/
structure TraceLine.Ok (line : TraceLine) : Prop where
  known : ∀ frame ∈ line.trace.t, ∃ mid lineNo info, readInt frame.1 = some mid ∧
    readInt frame.2 = some lineNo ∧ line.methodMap mid = some info ∧ fitsInt64 lineNo = true
  metric : fitsUint64 line.trace.m = true

/-- Files that the converter reads to their end. -/
structure Accepted (threads : List ThreadFiles) (contexts : List Context) : Prop where
  methods : ∀ files ∈ threads, ∃ methodMap, files.methodMap = some methodMap
  traces : ∀ files ∈ threads, ∀ line ∈ files.trace, " |".toList <:+: line →
    ∃ trace, readTrace line = some trace
  lines : ∀ line ∈ sectionLines threads, line.Ok
  size : contexts.length + ((sectionLines threads).map fun line => line.trace.t.length).sum ≤ 2 ^ 64

/-- An element of a list that was made element by element. -/
theorem mem_mapM_of_some {A B : Type} {f : A → Option B} {l : List A} {l' : List B}
    (h : l.mapM f = some l') {b : B} (hb : b ∈ l') : ∃ a ∈ l, f a = some b := by
  induction l generalizing l' with
  | nil =>
      cases h
      cases hb
  | cons a l ih =>
      rw [List.mapM_cons] at h
      simp only [Option.bind_eq_bind, Option.bind_eq_some_iff, Option.pure_def,
        Option.some.injEq] at h
      obtain ⟨b', hb', l'', hl'', rfl⟩ := h
      rcases List.mem_cons.mp hb with rfl | hb
      · exact ⟨a, List.mem_cons_self, hb'⟩
      · obtain ⟨a', ha', hfa'⟩ := ih hl'' hb
        exact ⟨a', List.mem_cons_of_mem _ ha', hfa'⟩

/-- The frames of a trace are pieces of its line. -/
theorem readTrace_frames {line : List Char} {trace : Trace} (h : readTrace line = some trace) :
    trace.t ≠ [] ∧ ∀ frame ∈ trace.t, ':' ∉ frame.1 := by
  unfold readTrace at h
  split at h
  · rename_i path metric rest hsplit
    simp only [Option.bind_eq_bind, Option.bind_eq_some_iff, Option.pure_def,
      Option.some.injEq] at h
    obtain ⟨m, -, t, ht, rfl⟩ := h
    constructor
    · obtain ⟨first, others, hpath⟩ := List.exists_cons_of_ne_nil (List.splitOn_ne_nil ' ' path)
      rw [hpath, List.mapM_cons] at ht
      simp only [Option.bind_eq_bind, Option.bind_eq_some_iff, Option.pure_def,
        Option.some.injEq] at ht
      obtain ⟨frame, -, frames, -, rfl⟩ := ht
      exact List.cons_ne_nil _ _
    · -- a piece between two colons has none
      intro frame hframe
      obtain ⟨text, -, htext⟩ := mem_mapM_of_some ht hframe
      unfold readFrame at htext
      split at htext
      · rename_i scope method rest' hpieces
        cases htext
        exact notMem_of_mem_splitOn (hpieces ▸ List.mem_cons_of_mem _ List.mem_cons_self)
      · cases htext
  · cases h

/-! ### What a frame is shown as

A known method is always shown. -/

/-- Every frame of an accepted line shows something that fits. -/
theorem TraceLine.Ok.frameShown {line : TraceLine} (h : line.Ok) (leafInFull : Bool) {i : Nat}
    (hi : i < line.trace.t.length) :
    ∃ s, frameShown leafInFull line.methodMap line.trace.t i = some s ∧ fitsInt64 s.2.2 = true := by
  obtain ⟨mid, lineNo, info, hmid, hlineNo, hinfo, hfits⟩ := h.known _ (List.getElem_mem hi)
  simp [DroidPerf.frameShown, List.getElem?_eq_getElem hi, hmid, hlineNo, hinfo, hfits]

/-! ### The calls of a section

The tree grows from line to line, and a call stays right in a larger tree. -/

/-- The call for a line. -/
structure CallOf (leafInFull : Bool) (T : PathTree TraceFrame) (call : Call) (line : TraceLine) :
    Prop where
  frames : line.trace.t ≠ []
  msgs : ∃ msgs, call = .addSample msgs [⟨0, line.trace.m, []⟩] ∧
    MsgsOf leafInFull line.methodMap line.trace.t T msgs

/-- The call of a line, in a larger tree. -/
theorem CallOf.mono {leafInFull : Bool} {T T' : PathTree TraceFrame} {call : Call}
    {line : TraceLine} (h : CallOf leafInFull T call line) (hpre : T.nodes <+: T'.nodes) :
    CallOf leafInFull T' call line := by
  obtain ⟨msgs, hcall, hmsgs⟩ := h.msgs
  exact ⟨h.frames, msgs, hcall, hmsgs.mono hpre⟩

/-- The calls for lines, made with a growing context tree. -/
structure CallsFor (leafInFull : Bool) (T T' : PathTree TraceFrame) (contexts' : List Context)
    (calls : List Call) (lines : List TraceLine) : Prop where
  represents : Represents contexts' T'
  grows : T.nodes <+: T'.nodes
  size : T'.nodes.length ≤ T.nodes.length + (lines.map fun line => line.trace.t.length).sum
  calls : List.Forall₂ (CallOf leafInFull T') calls lines

section Calls

variable {leafInFull : Bool} {methodMap : Int → Option MethodInfo} {T T₁ T' : PathTree TraceFrame}
  {contexts contexts₁ contexts' : List Context}

/-- The calls of some lines, and then those of others. -/
theorem CallsFor.append {calls calls' : List Call} {lines lines' : List TraceLine}
    (h : CallsFor leafInFull T T₁ contexts₁ calls lines)
    (h' : CallsFor leafInFull T₁ T' contexts' calls' lines') :
    CallsFor leafInFull T T' contexts' (calls ++ calls') (lines ++ lines') where
  represents := h'.represents
  grows := h.grows.trans h'.grows
  size := by
    have hsize := h.size
    have hsize' := h'.size
    rw [List.map_append, List.sum_append]
    omega
  calls := List.rel_append (h.calls.imp fun _ _ hcall => hcall.mono h'.grows) h'.calls

/-- For no lines there are no calls, and the tree stays. -/
theorem CallsFor.nil (h : Represents contexts T) : CallsFor leafInFull T T contexts [] [] :=
  ⟨h, List.prefix_refl _, Nat.le_refl _, .nil⟩

/-- The lines that a line of a file stands for: itself, or none. -/
theorem traceCall_spec (leafInFull : Bool) (methodMap : Int → Option MethodInfo)
    (h : Represents contexts T) {line : List Char}
    (hread : " |".toList <:+: line → ∃ trace, readTrace line = some trace)
    (hok : ∀ trace, traceOf line = some trace → (TraceLine.mk methodMap trace).Ok) :
    ∃ calls contexts' T', traceCall leafInFull methodMap line contexts = some (calls, contexts') ∧
      CallsFor leafInFull T T' contexts' calls
        ((traceOf line).toList.map (TraceLine.mk methodMap)) := by
  unfold traceCall
  by_cases hmetric : " |".toList <:+: line
  · obtain ⟨trace, htrace⟩ := hread hmetric
    have hof : traceOf line = some trace := by rw [traceOf, if_pos hmetric, htrace]
    have hline := hok trace hof
    obtain ⟨hne, hcolon⟩ := readTrace_frames htrace
    have hframes : ∀ frame ∈ trace.t, FrameOk frame := by
      intro frame hframe
      obtain ⟨mid, lineNo, -, hmid, hlineNo, -, -⟩ := hline.known frame hframe
      exact ⟨hcolon frame hframe, ⟨mid, hmid⟩, lineNo, hlineNo⟩
    have hshown : ∀ i < trace.t.length, (frameShown leafInFull methodMap trace.t i).isSome = true := by
      intro i hi
      obtain ⟨s, hs, -⟩ := hline.frameShown leafInFull hi
      exact Option.isSome_of_eq_some hs
    obtain ⟨msgs, contexts', T', hcall, hT', hpre, hlen, hmsgs⟩ :=
      contextMsgs_spec h hframes hshown
    refine ⟨[.addSample msgs [⟨0, trace.m, []⟩]], contexts', T', ?_, hT', hpre, ?_, ?_⟩
    · rw [if_pos hmetric]
      simp [htrace, hcall]
    · simpa [hof] using hlen
    · rw [hof]
      exact .cons ⟨hne, msgs, rfl, hmsgs⟩ .nil
  · -- no metric, no call
    refine ⟨[], contexts, T, by rw [if_neg hmetric], ?_⟩
    rw [traceOf, if_neg hmetric]
    exact .nil h

/-- The lines of a file make calls for those of them that have a metric. -/
theorem traceCalls_spec (leafInFull : Bool) {lines : List (List Char)} (h : Represents contexts T)
    (hread : ∀ line ∈ lines, " |".toList <:+: line → ∃ trace, readTrace line = some trace)
    (hok : ∀ line ∈ (lines.filterMap traceOf).map (TraceLine.mk methodMap), line.Ok) :
    ∃ calls contexts' T', traceCalls leafInFull methodMap lines contexts = some (calls, contexts') ∧
      CallsFor leafInFull T T' contexts' calls
        ((lines.filterMap traceOf).map (TraceLine.mk methodMap)) := by
  induction lines generalizing contexts T with
  | nil => exact ⟨[], contexts, T, rfl, .nil h⟩
  | cons line lines ih =>
      have hsplit : (line :: lines).filterMap traceOf =
          (traceOf line).toList ++ lines.filterMap traceOf := by
        cases hof : traceOf line <;> simp [hof]
      rw [hsplit, List.map_append, List.forall_mem_append] at hok
      rw [List.forall_mem_cons] at hread
      obtain ⟨calls, contexts₁, T₁, hcall, hfor⟩ := traceCall_spec leafInFull methodMap h hread.1
        fun trace htrace => hok.1 ⟨methodMap, trace⟩ (by simp [htrace])
      obtain ⟨calls', contexts', T', hcalls, hfor'⟩ := ih hfor.represents hread.2 hok.2
      refine ⟨calls ++ calls', contexts', T', by simp [traceCalls, hcall, hcalls], ?_⟩
      rw [hsplit, List.map_append]
      exact hfor.append hfor'

/-- The files of all threads make the calls for all their lines. -/
theorem sectionCalls_spec (leafInFull : Bool) {threads : List ThreadFiles} (h : Represents contexts T)
    (hmethods : ∀ files ∈ threads, ∃ methodMap, files.methodMap = some methodMap)
    (hread : ∀ files ∈ threads, ∀ line ∈ files.trace, " |".toList <:+: line →
      ∃ trace, readTrace line = some trace)
    (hok : ∀ line ∈ sectionLines threads, line.Ok) :
    ∃ calls contexts' T', sectionCalls leafInFull threads contexts = some (calls, contexts') ∧
      CallsFor leafInFull T T' contexts' calls (sectionLines threads) := by
  induction threads generalizing contexts T with
  | nil => exact ⟨[], contexts, T, rfl, .nil h⟩
  | cons files threads ih =>
      rw [List.forall_mem_cons] at hmethods hread
      obtain ⟨⟨methodMap, hmap⟩, hmethods⟩ := hmethods
      have hlines : files.lines = (files.trace.filterMap traceOf).map (TraceLine.mk methodMap) := by
        simp [ThreadFiles.lines, hmap]
      rw [sectionLines, List.flatMap_cons, List.forall_mem_append, hlines] at hok
      obtain ⟨calls, contexts₁, T₁, hcall, hfor⟩ :=
        traceCalls_spec leafInFull h hread.1 hok.1
      obtain ⟨calls', contexts', T', hcalls, hfor'⟩ := ih hfor.represents hmethods hread.2 hok.2
      refine ⟨calls ++ calls', contexts', T', by simp [sectionCalls, hmap, hcall, hcalls], ?_⟩
      rw [sectionLines, List.flatMap_cons, hlines]
      exact hfor.append hfor'

end Calls

/-! ### The first line through a call path

A line writes the contexts of all prefixes of its call path. Later messages for a context are
dropped, so the first line through it decides what it shows. -/

/-- What the first line through a call path shows at its end. -/
def firstShown (leafInFull : Bool) (lines : List TraceLine) (path : List TraceFrame) :
    Option Shown := do
  let line ← lines.find? fun line => path <+: line.trace.t
  frameShown leafInFull line.methodMap line.trace.t (path.length - 1)

section First

variable {leafInFull : Bool} {methodMap : Int → Option MethodInfo} {T : PathTree TraceFrame}
  {t path : List TraceFrame} {msgs : List ContextMsg} {contextId : Nat}

/-- The messages of a trace that goes through a call path. -/
theorem firstMsg_through (h : MsgsOf leafInFull methodMap t T msgs)
    (hpath : T.HasPath contextId path) (hne : path ≠ []) (hthrough : path <+: t)
    (pred : Option Nat) : ∃ m, firstMsg (withPred pred msgs) contextId = some m ∧
      frameShown leafInFull methodMap t (path.length - 1) = some (shown m.2) := by
  have hpos : 0 < path.length := List.length_pos_of_ne_nil hne
  have hlen : path.length - 1 < msgs.length := by
    have hle := hthrough.length_le
    rw [h.length]
    omega
  have hmsg := h.msg _ _ (List.getElem?_eq_getElem hlen)
  have htake : t.take (path.length - 1 + 1) = path := by
    rw [Nat.sub_add_cancel hpos]
    exact (List.prefix_iff_eq_take.mp hthrough).symm
  -- the message for the last frame of the path has the context of the path
  have hid : msgs[path.length - 1].contextId = contextId := (htake ▸ hmsg.path).inj hpath
  obtain ⟨m, hm⟩ : ∃ m, firstMsg (withPred pred msgs) contextId = some m := by
    refine Option.isSome_iff_exists.mp (List.find?_isSome.mpr ?_)
    have hmem : msgs[path.length - 1] ∈ (withPred pred msgs).map Prod.snd := by
      rw [Builder.map_snd_withPred]
      exact List.getElem_mem hlen
    obtain ⟨m, hm, heq⟩ := List.mem_map.mp hmem
    exact ⟨m, hm, by simp [heq, hid]⟩
  refine ⟨m, hm, ?_⟩
  -- a message with the id is that of the frame at the end of the path
  obtain ⟨hmem, hmid⟩ := Builder.firstMsg_eq_some hm
  have hmem' : m.2 ∈ msgs := Builder.map_snd_withPred pred msgs ▸ List.mem_map_of_mem hmem
  obtain ⟨j, hj⟩ := List.getElem?_of_mem hmem'
  have hj' := h.msg j m.2 hj
  have hsame : t.take (j + 1) = path := (hmid ▸ hj'.path).unique hpath
  have hjlen : j + 1 = path.length := by
    have hjlt := (List.getElem?_eq_some_iff.mp hj).1
    rw [← hsame, List.length_take, ← h.length]
    omega
  rw [show path.length - 1 = j by omega]
  exact hj'.shown

/-- The messages of a trace that does not. -/
theorem firstMsg_not_through (h : MsgsOf leafInFull methodMap t T msgs)
    (hpath : T.HasPath contextId path) (hthrough : ¬ path <+: t) (pred : Option Nat) :
    firstMsg (withPred pred msgs) contextId = none := by
  refine Builder.firstMsg_eq_none.mpr fun m hm hid => hthrough ?_
  have hmem : m.2 ∈ msgs := Builder.map_snd_withPred pred msgs ▸ List.mem_map_of_mem hm
  obtain ⟨j, hj⟩ := List.getElem?_of_mem hmem
  have hsame : t.take (j + 1) = path := (hid ▸ (h.msg j m.2 hj).path).unique hpath
  rw [← hsame]
  exact List.take_prefix _ _

/-- The first message for a context is that of the first line through its call path. -/
theorem firstMsg_history {calls : List Call} {lines : List TraceLine}
    (h : List.Forall₂ (CallOf leafInFull T) calls lines) (hpath : T.HasPath contextId path)
    (hne : path ≠ []) : (firstMsg (history calls) contextId).map (fun m => shown m.2) =
      firstShown leafInFull lines path := by
  induction h with
  | nil => rfl
  | @cons call line calls lines hcall _ ih =>
      obtain ⟨msgs, rfl, hmsgs⟩ := hcall.msgs
      rw [history, List.flatMap_cons, firstMsg, List.find?_append, firstShown, List.find?_cons]
      by_cases hthrough : path <+: line.trace.t
      · obtain ⟨m, hm, hshown⟩ := firstMsg_through hmsgs hpath hne hthrough none
        rw [firstMsg] at hm
        simp [Call.contextMsgs, hm, hthrough, hshown]
      · have hnone := firstMsg_not_through hmsgs hpath hthrough none
        rw [firstMsg] at hnone
        simp only [Call.contextMsgs, hnone, hthrough, Option.none_or, decide_false]
        exact ih

end First

/-! ### The profile of the accesses

The builder accepts the calls of accepted lines, and the profile can be decoded. -/

/-- What the leaf of a sample shows, and the metrics of the sample. -/
def DataBuilder.Profile.decodeLeaf (p : Profile) (s : Sample) :
    Option (Shown × List MetricMsg) := do
  let context ← p.context.find? fun c => c.id = s.contextId
  let leaf ← p.resolve context.locationId
  let metrics ← s.metric.mapM p.decodeMetric
  return (leaf, metrics)

/-- A sample is decoded to what the first message for its context says. -/
theorem DataBuilder.Builder.After.decodeLeaf {b : Builder} {S : List (List Char)}
    {H : List (Option Nat × ContextMsg)} {samples : List (Nat × List MetricMsg)}
    (hb : b.After S H samples) {s : Sample} {e : Nat × List MetricMsg}
    (hs : s.Is b.stringTable e) {m : Option Nat × ContextMsg} (hm : firstMsg H e.1 = some m) :
    b.profile.decodeLeaf s = some (shown m.2, e.2) := by
  obtain ⟨hmem, hid⟩ := Builder.firstMsg_eq_some hm
  obtain ⟨d, hd, hdid, -, hresolves⟩ := hb.recorded.first m hmem (hid ▸ hm)
  have hfind : b.profile.context.find? (fun c => c.id = s.contextId) = some d :=
    find?_id hb.ok.contexts.nodup hd (by rw [hdid, hid, hs.1])
  have hmetrics := Builder.mapM_eq_some (hs.2.imp fun _ _ h => Builder.decodeMetric_eq h)
  simp [Profile.decodeLeaf, hfind, hb.ok.resolve_eq hresolves, hmetrics]

section Profile

variable {hash : List Char → Int} {leafInFull : Bool} {T T' : PathTree TraceFrame}
  {contexts contexts' : List Context} {calls : List Call} {lines : List TraceLine}

/-- No message is for the root. -/
theorem MsgOf.ne_zero {methodMap : Int → Option MethodInfo} {t : List TraceFrame} {i : Nat}
    {msg : ContextMsg} (h : MsgOf leafInFull methodMap t T i msg) (hi : i < t.length) :
    msg.contextId ≠ 0 := by
  intro hzero
  have hnil := (hzero ▸ h.path).unique .root
  have hlen := congrArg List.length hnil
  rw [List.length_take, List.length_nil] at hlen
  omega

/-- The numbers of a message fit its fields. -/
theorem MsgOf.fits {methodMap : Int → Option MethodInfo} {t : List TraceFrame} {i : Nat}
    {msg : ContextMsg} (h : MsgOf leafInFull methodMap t T i msg) (hsize : T.nodes.length < 2 ^ 64)
    {s : Shown} (hs : frameShown leafInFull methodMap t i = some s)
    (hfits : fitsInt64 s.2.2 = true) : ContextMsgFits msg := by
  have hle := h.path.le
  rw [h.shown] at hs
  cases hs
  refine ⟨?_, ?_, hfits⟩
  · have hlt := hle.trans_lt hsize
    simp only [fitsUint64, decide_eq_true_eq]
    omega
  · rw [h.startLine]
    exact hfits

/-- The calls of accepted lines are accepted. -/
theorem CallOf.fits {call : Call} {line : TraceLine} (h : CallOf leafInFull T call line)
    (hok : line.Ok) (hsize : T.nodes.length < 2 ^ 64) :
    call.Fits ∧ ∀ msg ∈ call.contextMsgs, msg.contextId ≠ 0 := by
  obtain ⟨msgs, rfl, hmsgs⟩ := h.msgs
  have hmsg : ∀ msg ∈ msgs, ContextMsgFits msg ∧ msg.contextId ≠ 0 := by
    intro msg hmem
    obtain ⟨i, hi⟩ := List.getElem?_of_mem hmem
    have hlt : i < line.trace.t.length := hmsgs.length ▸ (List.getElem?_eq_some_iff.mp hi).1
    obtain ⟨s, hs, hfits⟩ := hok.frameShown leafInFull hlt
    exact ⟨(hmsgs.msg i msg hi).fits hsize hs hfits, (hmsgs.msg i msg hi).ne_zero hlt⟩
  refine ⟨⟨fun msg hmem => (hmsg msg hmem).1, fun m hm => ?_⟩, fun msg hmem => (hmsg msg hmem).2⟩
  rw [List.mem_singleton.mp hm]
  exact ⟨rfl, hok.metric⟩

/-- The sample of a line has the context of the line's call path. -/
theorem CallOf.sample {call : Call} {line : TraceLine} (h : CallOf leafInFull T call line) :
    ∃ contextId, call.sample = [(contextId, [⟨0, line.trace.m, []⟩])] ∧
      T.HasPath contextId line.trace.t := by
  obtain ⟨msgs, rfl, hmsgs⟩ := h.msgs
  have hpos := List.length_pos_of_ne_nil h.frames
  have hlt : line.trace.t.length - 1 < msgs.length := by
    rw [hmsgs.length]
    omega
  have hmsg := hmsgs.msg _ _ (List.getElem?_eq_getElem hlt)
  refine ⟨msgs[line.trace.t.length - 1].contextId, ?_, ?_⟩
  · have hlast : msgs.getLast? = some msgs[line.trace.t.length - 1] := by
      rw [List.getLast?_eq_getElem?, hmsgs.length]
      exact List.getElem?_eq_getElem hlt
    simp [Call.sample, hlast]
  · have hpath := hmsg.path
    rw [Nat.sub_add_cancel hpos, List.take_length] at hpath
    exact hpath

/-- All calls of accepted lines are accepted. -/
theorem calls_fit (h : List.Forall₂ (CallOf leafInFull T) calls lines)
    (hok : ∀ line ∈ lines, line.Ok) (hsize : T.nodes.length < 2 ^ 64) :
    ∀ call ∈ calls, call.Fits ∧ ∀ msg ∈ call.contextMsgs, msg.contextId ≠ 0 := by
  induction h with
  | nil => simp
  | cons hcall _ ih =>
      rw [List.forall_mem_cons] at hok ⊢
      exact ⟨hcall.fits hok.1 hsize, ih hok.2⟩

/-- No call path is empty. -/
theorem lines_ne_nil (h : List.Forall₂ (CallOf leafInFull T) calls lines) :
    ∀ line ∈ lines, line.trace.t ≠ [] := by
  induction h with
  | nil => simp
  | cons hcall _ ih => exact List.forall_mem_cons.mpr ⟨hcall.frames, ih⟩

/-- A line is itself a line through its call path. -/
theorem isSome_firstShown (hok : ∀ line ∈ lines, line.Ok) {line : TraceLine}
    (hline : line ∈ lines) (hne : line.trace.t ≠ []) :
    ∃ s, firstShown leafInFull lines line.trace.t = some s := by
  obtain ⟨line', hline'⟩ : ∃ line', lines.find? (fun l => line.trace.t <+: l.trace.t) =
      some line' :=
    Option.isSome_iff_exists.mp (List.find?_isSome.mpr ⟨line, hline, by simp⟩)
  have hthrough : line.trace.t <+: line'.trace.t := by simpa using List.find?_some hline'
  have hpos := List.length_pos_of_ne_nil hne
  have hlt : line.trace.t.length - 1 < line'.trace.t.length := by
    have hle := hthrough.length_le
    omega
  obtain ⟨s, hs, -⟩ := (hok line' (List.mem_of_find?_eq_some hline')).frameShown leafInFull hlt
  exact ⟨s, by simp [firstShown, hline', hs]⟩

/-- The samples of lines show what the first lines through their call paths did. -/
theorem decodeLeaves_eq {b : Builder} {S : List (List Char)} {H : List (Option Nat × ContextMsg)}
    {samples : List (Nat × List MetricMsg)} (hb : b.After S H samples)
    {shownAt : List TraceFrame → Option Shown}
    (hH : ∀ contextId path, T.HasPath contextId path → path ≠ [] →
      (firstMsg H contextId).map (fun m => shown m.2) = shownAt path)
    (hcalls : List.Forall₂ (CallOf leafInFull T) calls lines)
    (hshown : ∀ line ∈ lines, ∃ s, shownAt line.trace.t = some s) {l : List Sample}
    (hl : List.Forall₂ (Sample.Is b.stringTable) l (calls.flatMap Call.sample)) :
    l.mapM b.profile.decodeLeaf = lines.mapM fun line =>
      (shownAt line.trace.t).map fun s => (s, [⟨0, line.trace.m, []⟩]) := by
  induction hcalls generalizing l with
  | nil =>
      cases hl
      rfl
  | @cons call line calls lines hcall _ ih =>
      rw [List.forall_mem_cons] at hshown
      obtain ⟨contextId, hsample, hpath⟩ := hcall.sample
      obtain ⟨s, hs⟩ := hshown.1
      have hfirst := hH contextId _ hpath hcall.frames
      rw [hs, Option.map_eq_some_iff] at hfirst
      obtain ⟨m, hm, rfl⟩ := hfirst
      rw [List.flatMap_cons, hsample] at hl
      cases hl with
      | cons hhead hrest =>
          rw [List.mapM_cons, List.mapM_cons, hb.decodeLeaf hhead hm, ih hshown.2 hrest, hs]
          rfl

/-- The leaves of the profile of the accesses. -/
theorem accessProfile_leaves {threads : List ThreadFiles} (hT : Represents contexts T)
    (hacc : Accepted threads contexts)
    (hhash : ∀ calls, profileCalls true threads contexts = some calls →
      NoCollision hash (Builder.new.hashedRun hash calls)) :
    ∃ p, accessProfile hash threads contexts = some p ∧
      p.sample.mapM p.decodeLeaf = (sectionLines threads).mapM fun line =>
        (firstShown true (sectionLines threads) line.trace.t).map fun s =>
          (s, [⟨0, line.trace.m, []⟩]) := by
  obtain ⟨calls, contexts', T', hcalls, hfor⟩ :=
    sectionCalls_spec true hT hacc.methods hacc.traces hacc.lines
  have hprofile : profileCalls true threads contexts =
      some (.addMetricType 1 "cpu cycle".toList "cpu cycle".toList :: calls) := by
    simp [profileCalls, hcalls]
  have hsize : T'.nodes.length < 2 ^ 64 := by
    have hle := hfor.size
    have hsum := hacc.size
    have hlen := hT.length
    omega
  have hfits := calls_fit hfor.calls hacc.lines hsize
  have hzero : ∀ call ∈ Call.addMetricType 1 "cpu cycle".toList "cpu cycle".toList :: calls,
      ∀ msg ∈ call.contextMsgs, msg.contextId ≠ 0 :=
    List.forall_mem_cons.mpr ⟨by simp [Call.contextMsgs], fun call hcall => (hfits call hcall).2⟩
  obtain ⟨b, hrun⟩ := Builder.ok_new.exists_run hash hzero
    (List.forall_mem_cons.mpr ⟨rfl, fun call hcall => (hfits call hcall).1⟩)
  have hb := Builder.after_new.run (hhash _ hprofile) hzero (fun _ hs => hs) hrun
  refine ⟨b.profile, ?_, ?_⟩
  · simp only [accessProfile, hprofile, Option.bind_eq_bind, Option.bind_some, hrun,
      Option.pure_def]
  -- the call for the metric type has no messages and no sample
  have hhistory : history (Call.addMetricType 1 "cpu cycle".toList "cpu cycle".toList :: calls) =
      history calls := rfl
  rw [hhistory, List.nil_append, List.nil_append] at hb
  refine decodeLeaves_eq hb (fun contextId path hpath hne => firstMsg_history hfor.calls hpath hne)
    hfor.calls (fun line hline => ?_) hb.sample
  exact isSome_firstShown hacc.lines hline (lines_ne_nil hfor.calls line hline)

end Profile

end DroidPerf
