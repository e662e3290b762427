import DroidPerf.Conversion
import DroidPerf.ProfilePathsSound

/-!
# DroidPerf.ConversionSound

What the profiles of a conversion show.

`Section.Spec` says what a section makes of one line; the three sections differ in which lines
they accept, which of these they keep, and how they show leaves. From it follows what a section
makes of its files (`Section.Spec.threads`), and by induction what several sections do that
share a context tree (`profiles_decode`).

The tree only grows, and the number of its nodes is bounded by the number of frames read, so
that ids stay below the limit of their type. Between the sections nothing else is carried over:
the builder of each section is a new one, and what it shows is decoded from the calls of that
section alone (`KnownSection.profile_shows`).
-/

namespace DroidPerf

open Text

open DataBuilder

/-! ### Lines

A line can be accepted in two senses: all its numbers can be read, or also all its methods are
known. Both can be computed. -/

/-- The numbers of a line can be read and stored. -/
structure TraceLine.Reads (line : TraceLine) : Prop where
  frames : ∀ frame ∈ line.trace.t, ∃ mid lineNo, readInt frame.1 = some mid ∧
    readInt frame.2 = some lineNo ∧ fitsInt64 lineNo = true
  metric : fitsUint64 line.trace.m = true

/-- The method of a frame is known. -/
def knownFrame (methodMap : Int → Option MethodInfo) (frame : TraceFrame) : Bool :=
  ((readInt frame.1).bind methodMap).isSome

/-- All methods of a line are known. -/
def TraceLine.known (line : TraceLine) : Bool := line.trace.t.all (knownFrame line.methodMap)

/-- A line that can be read and whose methods are known can be shown. -/
theorem TraceLine.Reads.ok {line : TraceLine} (h : line.Reads) (hknown : line.known = true) :
    line.Ok where
  known frame hframe := by
    obtain ⟨mid, lineNo, hmid, hlineNo, hfits⟩ := h.frames frame hframe
    have hinfo := List.all_eq_true.mp hknown frame hframe
    rw [knownFrame, hmid, Option.bind_some, Option.isSome_iff_exists] at hinfo
    obtain ⟨info, hinfo⟩ := hinfo
    exact ⟨mid, lineNo, info, hmid, hlineNo, hinfo, hfits⟩
  metric := h.metric

/-- Whether a line can be read can be computed. -/
theorem TraceLine.reads_iff {line : TraceLine} : line.Reads ↔
    (∀ frame ∈ line.trace.t, (readInt frame.1).isSome = true ∧
      (readInt frame.2).any fitsInt64 = true) ∧ fitsUint64 line.trace.m = true := by
  constructor
  · intro h
    refine ⟨fun frame hframe => ?_, h.metric⟩
    obtain ⟨mid, lineNo, hmid, hlineNo, hfits⟩ := h.frames frame hframe
    simp [hmid, hlineNo, hfits]
  · intro h
    refine ⟨fun frame hframe => ?_, h.2⟩
    obtain ⟨hmid, hlineNo⟩ := h.1 frame hframe
    obtain ⟨mid, hmid⟩ := Option.isSome_iff_exists.mp hmid
    obtain ⟨lineNo, hlineNo, hfits⟩ := (Option.any_eq_true _ _).mp hlineNo
    exact ⟨mid, lineNo, hmid, hlineNo, hfits⟩

instance (line : TraceLine) : Decidable line.Reads := decidable_of_iff _ TraceLine.reads_iff.symm

/-- To be shown is to be read and known. -/
theorem TraceLine.ok_iff {line : TraceLine} : line.Ok ↔ line.Reads ∧ line.known = true := by
  constructor
  · intro h
    refine ⟨⟨fun frame hframe => ?_, h.metric⟩, List.all_eq_true.mpr fun frame hframe => ?_⟩
    · obtain ⟨mid, lineNo, -, hmid, hlineNo, -, hfits⟩ := h.known frame hframe
      exact ⟨mid, lineNo, hmid, hlineNo, hfits⟩
    · obtain ⟨mid, lineNo, info, hmid, -, hinfo, -⟩ := h.known frame hframe
      simp [knownFrame, hmid, hinfo]
  · intro h
    exact h.1.ok h.2

instance (line : TraceLine) : Decidable line.Ok := decidable_of_iff _ TraceLine.ok_iff.symm

/-! ### A line of the section for allocations

The loop over the frames, from any frame on: it comes to the end of the trace if the remaining
methods are known. -/

section Alloc

variable {methodMap : Int → Option MethodInfo} {t : List TraceFrame} {contexts : List Context}
  {T : PathTree TraceFrame}

/-- The context for the call path up to a frame. -/
theorem getContextId_take (h : Represents contexts T) (hframes : ∀ frame ∈ t, FrameOk frame)
    {k : Nat} (hk : k < t.length) (hprev : T.IsPath (t.take k)) :
    ∃ contextId contexts' T' node,
      getContextId contexts 0 (t.take (k + 1)) = some (contextId, contexts') ∧
        contexts'[contextId]? = some node ∧ readInt t[k].1 = some node.mid ∧
        readInt t[k].2 = some node.lineNo ∧ Represents contexts' T' ∧ T.nodes <+: T'.nodes ∧
        T'.nodes.length ≤ T.nodes.length + 1 ∧ T'.HasPath contextId (t.take (k + 1)) := by
  have htake : t.take (k + 1) = t.take k ++ [t[k]] := List.take_succ_eq_append_getElem hk
  have hok : ∀ frame ∈ t.take (k + 1), FrameOk frame :=
    fun frame hframe => hframes frame (List.mem_of_mem_take hframe)
  obtain ⟨⟨contextId, contexts'⟩, hcall⟩ := exists_getContextId h
    (by rw [h.length]; exact Nat.succ_pos _) hok
    (by rw [htake]; exact List.append_ne_nil_of_right_ne_nil _ (by simp))
  obtain ⟨T', hT', hwalk⟩ := getContextId_refines h (fun frame hframe => (hok frame hframe).1) hcall
  have hpath : T'.HasPath contextId (t.take (k + 1)) := hwalk.hasPath .root
  obtain ⟨node, hnode, hmid, hlineNo⟩ := hT'.node (htake ▸ hpath)
  refine ⟨contextId, contexts', T', node, hcall, hnode, hmid, hlineNo, hT', hwalk.isPrefix, ?_,
    hpath⟩
  -- up to the last frame the walk is on a path of the tree
  obtain ⟨c, T₁, hfirst, hlast⟩ := (htake ▸ hwalk : T.Walk 0 (t.take k ++ [t[k]]) _ _).split
  rw [← hfirst.nodes_eq .root fun r hr => hprev.of_isPrefix hr]
  exact hlast.length_le

/-- The loop over the frames from frame `k` on. -/
theorem allocContextMsgs_spec (methodMap : Int → Option MethodInfo) (hframes : ∀ frame ∈ t, FrameOk frame) {n k : Nat}
    (hn : k + n = t.length) (h : Represents contexts T) (hprev : T.IsPath (t.take k))
    {msgs : List ContextMsg} (hlen : msgs.length = k)
    (hmsgs : ∀ (i : Nat) msg, msgs[i]? = some msg → MsgOf false methodMap t T i msg) :
    ∃ r contexts' T', allocContextMsgs methodMap t (List.range' k n) msgs contexts =
        some (r, contexts') ∧ Represents contexts' T' ∧ T.nodes <+: T'.nodes ∧
      T'.nodes.length ≤ T.nodes.length + n ∧
      r.isSome = (t.drop k).all (knownFrame methodMap) ∧
      ∀ msgs', r = some msgs' → MsgsOf false methodMap t T' msgs' := by
  induction n generalizing contexts T msgs k with
  | zero =>
      refine ⟨some msgs, contexts, T, rfl, h, List.prefix_refl _, Nat.le_refl _, ?_, ?_⟩
      · rw [List.drop_eq_nil_of_le (by omega)]
        rfl
      · intro msgs' hmsgs'
        cases hmsgs'
        exact ⟨by omega, hmsgs⟩
  | succ n ih =>
      have hk : k < t.length := by omega
      obtain ⟨contextId, contexts₁, T₁, node, hcall, hnode, hmid, hlineNo, hT₁, hpre, hsize, hpath⟩ :=
        getContextId_take h hframes hk hprev
      have hdrop : t.drop k = t[k] :: t.drop (k + 1) := List.drop_eq_getElem_cons hk
      have hframe : knownFrame methodMap t[k] = (methodMap node.mid).isSome := by
        rw [knownFrame, hmid, Option.bind_some]
      cases hinfo : methodMap node.mid with
      | none =>
          -- the method is not known, and the line is given up
          refine ⟨none, contexts₁, T₁, ?_, hT₁, hpre, by omega, ?_, by simp⟩
          · simp [List.range'_succ, allocContextMsgs, hcall, hnode, hinfo]
          · rw [hdrop, List.all_cons, hframe, hinfo]
            rfl
      | some info =>
          -- this frame has its message, and the loop goes on
          have hmsg : MsgOf false methodMap t T₁ k (contextMsg false contextId node info) := by
            refine ⟨hpath, ?_, rfl⟩
            simp [frameShown, List.getElem?_eq_getElem hk, hmid, hlineNo, hinfo, contextMsg]
          obtain ⟨r, contexts', T', hrest, hT', hpre', hsize', hknown, hmsgs'⟩ :=
            ih (k := k + 1) (by omega) hT₁ ⟨contextId, hpath⟩
              (show (msgs ++ [contextMsg false contextId node info]).length = k + 1 by simp [hlen]) (by
                intro i msg hi
                rcases Intern.getElem?_concat.mp hi with hi | ⟨rfl, rfl⟩
                · exact (hmsgs i msg hi).mono hpre
                · exact hlen ▸ hmsg)
          refine ⟨r, contexts', T', ?_, hT', hpre.trans hpre', by omega, ?_, hmsgs'⟩
          · rw [← hrest]
            simp [List.range'_succ, allocContextMsgs, hcall, hnode, hinfo]
          · rw [hdrop, List.all_cons, hframe, hinfo, hknown]
            rfl

end Alloc

/-! ### Sections

The sections for samples have been dealt with line by line; here they and the section for
allocations get a specification of the same form. -/

/-- The calls for those of the lines that are kept, made with a growing context tree. -/
structure KeptCalls (leafInFull : Bool) (keeps : TraceLine → Bool) (T T' : PathTree TraceFrame)
    (contexts' : List Context) (calls : List Call) (lines : List TraceLine) : Prop where
  represents : Represents contexts' T'
  grows : T.nodes <+: T'.nodes
  size : T'.nodes.length ≤ T.nodes.length + (lines.map fun line => line.trace.t.length).sum
  calls : List.Forall₂ (CallOf leafInFull T') calls (lines.filter keeps)

/-- What a section makes of a line that it accepts: a call, if it keeps the line. -/
structure Section.Spec (s : Section) (leafInFull : Bool) (accepts : TraceLine → Prop)
    (keeps : TraceLine → Bool) : Prop where
  line : ∀ (methodMap : Int → Option MethodInfo) {contexts : List Context}
    {T : PathTree TraceFrame} {line : List Char}, Represents contexts T →
    (" |".toList <:+: line → ∃ trace, readTrace line = some trace) →
    (∀ trace, traceOf line = some trace → accepts ⟨methodMap, trace⟩) →
    ∃ calls contexts' T', s.lineCall methodMap line contexts = some (calls, contexts') ∧
      KeptCalls leafInFull keeps T T' contexts' calls
        ((traceOf line).toList.map (TraceLine.mk methodMap))
  ok : ∀ line, accepts line → keeps line = true → line.Ok

/-- The sections for cache misses and for accesses keep all lines. -/
theorem spec_traceCall (kind : OutputKind) (leafInFull : Bool) :
    (Section.mk kind (traceCall leafInFull)).Spec leafInFull TraceLine.Ok fun _ => true where
  line methodMap _ _ _ h hread hok := by
    obtain ⟨calls, contexts', T', hcall, hfor⟩ := traceCall_spec leafInFull methodMap h hread hok
    exact ⟨calls, contexts', T', hcall, hfor.represents, hfor.grows, hfor.size,
      by simpa using hfor.calls⟩
  ok _ hok _ := hok

/-- The section for allocations keeps the lines of which all methods are known. -/
theorem spec_alloc : Section.alloc.Spec false TraceLine.Reads TraceLine.known where
  line methodMap contexts T line h hread haccepts := by
    by_cases hmetric : " |".toList <:+: line
    · obtain ⟨trace, htrace⟩ := hread hmetric
      have hof : traceOf line = some trace := by rw [traceOf, if_pos hmetric, htrace]
      have hreads := haccepts trace hof
      obtain ⟨hne, hcolon⟩ := readTrace_frames htrace
      have hframes : ∀ frame ∈ trace.t, FrameOk frame := by
        intro frame hframe
        obtain ⟨mid, lineNo, hmid, hlineNo, -⟩ := hreads.frames frame hframe
        exact ⟨hcolon frame hframe, ⟨mid, hmid⟩, lineNo, hlineNo⟩
      obtain ⟨r, contexts', T', hcall, hT', hpre, hsize, hknown, hmsgs⟩ :=
        allocContextMsgs_spec methodMap hframes (Nat.zero_add trace.t.length) h
          (PathTree.isPath_nil _) (show ([] : List ContextMsg).length = 0 from rfl) (by simp)
      rw [← List.range_eq_range'] at hcall
      rw [List.drop_zero] at hknown
      rw [hof]
      cases r with
      | none =>
          -- the line is left out
          have hdropped : (TraceLine.mk methodMap trace).known = false := hknown.symm
          refine ⟨[], contexts', T', ?_, hT', hpre, by simpa using hsize, ?_⟩
          · simp only [Section.alloc, allocCall]
            rw [if_pos hmetric, htrace]
            simp [hcall]
          · simp [hdropped]
      | some msgs =>
          -- the line is kept, with its messages
          have hall : (TraceLine.mk methodMap trace).known = true := hknown.symm
          have hkept : [TraceLine.mk methodMap trace].filter TraceLine.known =
              [TraceLine.mk methodMap trace] := by simp [hall]
          refine ⟨[.addSample msgs [⟨0, trace.m, []⟩]], contexts', T', ?_, hT', hpre,
            by simpa using hsize, ?_⟩
          · simp only [Section.alloc, allocCall]
            rw [if_pos hmetric, htrace]
            simp [hcall]
          · rw [Option.toList_some, List.map_singleton, hkept]
            exact .cons ⟨hne, msgs, rfl, hmsgs msgs rfl⟩ .nil
    · have hof : traceOf line = none := by rw [traceOf, if_neg hmetric]
      refine ⟨[], contexts, T, ?_, h, List.prefix_refl _, Nat.le_add_right _ _, ?_⟩
      · exact if_neg hmetric
      · rw [hof]
        exact .nil
  ok _ := TraceLine.Reads.ok

/-! ### The files of a section

From lines to files to threads: the calls are put one after the other, and the trees grow. -/

/-- Files that a section reads to their end. -/
structure AcceptedBy (accepts : TraceLine → Prop) (threads : List ThreadFiles) : Prop where
  methods : ∀ files ∈ threads, ∃ methodMap, files.methodMap = some methodMap
  traces : ∀ files ∈ threads, ∀ line ∈ files.trace, " |".toList <:+: line →
    ∃ trace, readTrace line = some trace
  lines : ∀ line ∈ sectionLines threads, accepts line

/-- Whether files are accepted can be computed. -/
theorem acceptedBy_iff {accepts : TraceLine → Prop} {threads : List ThreadFiles} :
    AcceptedBy accepts threads ↔ (∀ files ∈ threads, files.methodMap.isSome = true) ∧
      (∀ files ∈ threads, ∀ line ∈ files.trace, " |".toList <:+: line →
        (readTrace line).isSome = true) ∧ ∀ line ∈ sectionLines threads, accepts line := by
  simp only [Option.isSome_iff_exists]
  exact ⟨fun h => ⟨h.methods, h.traces, h.lines⟩, fun h => ⟨h.1, h.2.1, h.2.2⟩⟩

instance (accepts : TraceLine → Prop) [DecidablePred accepts] (threads : List ThreadFiles) :
    Decidable (AcceptedBy accepts threads) := decidable_of_iff _ acceptedBy_iff.symm

section Files

variable {s : Section} {leafInFull : Bool} {accepts : TraceLine → Prop} {keeps : TraceLine → Bool}
  {contexts : List Context} {T : PathTree TraceFrame}

/-- For no lines there are no calls, and the tree stays. -/
theorem KeptCalls.nil (h : Represents contexts T) :
    KeptCalls leafInFull keeps T T contexts [] [] :=
  ⟨h, List.prefix_refl _, Nat.le_refl _, .nil⟩

/-- The calls for some lines and those for others are the calls for all of them. -/
theorem KeptCalls.append {T₁ T' : PathTree TraceFrame} {contexts₁ contexts' : List Context}
    {calls calls' : List Call} {lines lines' : List TraceLine}
    (h : KeptCalls leafInFull keeps T T₁ contexts₁ calls lines)
    (h' : KeptCalls leafInFull keeps T₁ T' contexts' calls' lines') :
    KeptCalls leafInFull keeps T T' contexts' (calls ++ calls') (lines ++ lines') where
  represents := h'.represents
  grows := h.grows.trans h'.grows
  size := by
    have hsize := h.size
    have hsize' := h'.size
    rw [List.map_append, List.sum_append]
    omega
  calls := by
    rw [List.filter_append]
    exact List.rel_append (h.calls.imp fun _ _ hcall => hcall.mono h'.grows) h'.calls

/-- The calls for the lines of a file. -/
theorem Section.Spec.lines (hs : s.Spec leafInFull accepts keeps)
    {methodMap : Int → Option MethodInfo} {lines : List (List Char)} (h : Represents contexts T)
    (hread : ∀ line ∈ lines, " |".toList <:+: line → ∃ trace, readTrace line = some trace)
    (haccepts : ∀ line ∈ (lines.filterMap traceOf).map (TraceLine.mk methodMap), accepts line) :
    ∃ calls contexts' T', s.linesCalls methodMap lines contexts = some (calls, contexts') ∧
      KeptCalls leafInFull keeps T T' contexts' calls
        ((lines.filterMap traceOf).map (TraceLine.mk methodMap)) := by
  induction lines generalizing contexts T with
  | nil => exact ⟨[], contexts, T, rfl, .nil h⟩
  | cons line lines ih =>
      have hsplit : (line :: lines).filterMap traceOf =
          (traceOf line).toList ++ lines.filterMap traceOf := by
        cases hof : traceOf line <;> simp [hof]
      rw [hsplit, List.map_append, List.forall_mem_append] at haccepts
      rw [List.forall_mem_cons] at hread
      obtain ⟨calls, contexts₁, T₁, hcall, hkept⟩ := hs.line methodMap h hread.1
        fun trace htrace => haccepts.1 ⟨methodMap, trace⟩ (by simp [htrace])
      obtain ⟨calls', contexts', T', hcalls, hkept'⟩ := ih hkept.represents hread.2 haccepts.2
      refine ⟨calls ++ calls', contexts', T', by simp [Section.linesCalls, hcall, hcalls], ?_⟩
      rw [hsplit, List.map_append]
      exact hkept.append hkept'

/-- The calls for the files of a section. -/
theorem Section.Spec.threads (hs : s.Spec leafInFull accepts keeps) {threads : List ThreadFiles}
    (h : Represents contexts T) (haccepts : AcceptedBy accepts threads) :
    ∃ calls contexts' T', s.threadsCalls threads contexts = some (calls, contexts') ∧
      KeptCalls leafInFull keeps T T' contexts' calls (sectionLines threads) := by
  obtain ⟨hmethods, hread, haccepts⟩ := haccepts
  induction threads generalizing contexts T with
  | nil => exact ⟨[], contexts, T, rfl, .nil h⟩
  | cons files threads ih =>
      rw [List.forall_mem_cons] at hmethods hread
      obtain ⟨⟨methodMap, hmap⟩, hmethods⟩ := hmethods
      have hlines : files.lines = (files.trace.filterMap traceOf).map (TraceLine.mk methodMap) := by
        simp [ThreadFiles.lines, hmap]
      rw [sectionLines, List.flatMap_cons, List.forall_mem_append, hlines] at haccepts
      obtain ⟨calls, contexts₁, T₁, hcall, hkept⟩ := hs.lines h hread.1 haccepts.1
      obtain ⟨calls', contexts', T', hcalls, hkept'⟩ :=
        ih hkept.represents hmethods hread.2 haccepts.2
      refine ⟨calls ++ calls', contexts', T',
        by simp [Section.threadsCalls, hmap, hcall, hcalls], ?_⟩
      rw [sectionLines, List.flatMap_cons, hlines]
      exact hkept.append hkept'

/-- The sections for samples make the calls of `sectionCalls`. -/
theorem threadsCalls_traceCall (kind : OutputKind) (leafInFull : Bool) (threads : List ThreadFiles)
    (contexts : List Context) :
    (Section.mk kind (traceCall leafInFull)).threadsCalls threads contexts =
      sectionCalls leafInFull threads contexts := by
  have hlines : ∀ methodMap lines contexts,
      (Section.mk kind (traceCall leafInFull)).linesCalls methodMap lines contexts =
        traceCalls leafInFull methodMap lines contexts := by
    intro methodMap lines
    induction lines with
    | nil => exact fun _ => rfl
    | cons line lines ih =>
        intro contexts
        simp only [Section.linesCalls, traceCalls, ih]
  induction threads generalizing contexts with
  | nil => rfl
  | cons files threads ih => simp only [Section.threadsCalls, sectionCalls, hlines, ih]

end Files

/-! ### Profiles

A profile shows lines if its samples, decoded, are those of the lines. The calls of a section
fit the builder, so that it accepts them. -/

/-- The samples of a profile are those of lines. -/
def DataBuilder.Profile.Shows (p : Profile) (leafInFull : Bool) (lines : List TraceLine) : Prop :=
  ∃ samples, p.sample.mapM p.decodeSample = some samples ∧
    lines.mapM (lineSample leafInFull lines) = some samples

/-- Lines that can be shown have samples. -/
theorem exists_lineSamples (leafInFull : Bool) {lines lines' : List TraceLine}
    (hok : ∀ line ∈ lines, line.Ok) (hsub : ∀ line ∈ lines', line ∈ lines) :
    ∃ samples, lines'.mapM (lineSample leafInFull lines) = some samples := by
  induction lines' with
  | nil => exact ⟨[], rfl⟩
  | cons line lines' ih =>
      rw [List.forall_mem_cons] at hsub
      obtain ⟨samples, hsamples⟩ := ih hsub.2
      obtain ⟨path, hpath⟩ := exists_pathShown leafInFull hok hsub.1
        (List.prefix_refl _)
      exact ⟨(path, [⟨0, line.trace.m, []⟩]) :: samples, by simp [lineSample, hpath, hsamples]⟩

/-- A section with what is known of it. -/
structure KnownSection extends Section where
  leafInFull : Bool
  accepts : TraceLine → Prop
  keeps : TraceLine → Bool
  spec : toSection.Spec leafInFull accepts keeps

namespace KnownSection

def cachemiss : KnownSection :=
  ⟨.cachemiss, false, TraceLine.Ok, fun _ => true, spec_traceCall _ _⟩

def access : KnownSection := ⟨.access, true, TraceLine.Ok, fun _ => true, spec_traceCall _ _⟩

def alloc : KnownSection := ⟨.alloc, false, TraceLine.Reads, TraceLine.known, spec_alloc⟩

/-- The lines of the files of a section that it keeps. -/
def kept (s : KnownSection) (threads : List ThreadFiles) : List TraceLine :=
  (sectionLines threads).filter s.keeps

/-- How many frames the lines of files have. -/
def frameCount (threads : List ThreadFiles) : Nat :=
  ((sectionLines threads).map fun line => line.trace.t.length).sum

/-- The numbers of the calls fit their fields, and no context id is the root's. -/
theorem calls_fit (s : KnownSection) {threads : List ThreadFiles} {T : PathTree TraceFrame}
    {calls : List Call} (haccepts : AcceptedBy s.accepts threads)
    (hcalls : List.Forall₂ (CallOf s.leafInFull T) calls (s.kept threads))
    (hsize : T.nodes.length < 2 ^ 64) :
    (∀ line ∈ s.kept threads, line.Ok) ∧
      ∀ call ∈ calls, call.Fits ∧ ∀ msg ∈ call.contextMsgs, msg.contextId ≠ 0 := by
  have hok : ∀ line ∈ s.kept threads, line.Ok := by
    intro line hline
    obtain ⟨hmem, hkeeps⟩ := List.mem_filter.mp hline
    exact s.spec.ok line (haccepts.lines line hmem) hkeeps
  exact ⟨hok, DroidPerf.calls_fit hcalls hok hsize⟩

/-- The profile of a section shows the lines that the section keeps. -/
theorem profile_shows (s : KnownSection) {hash : List Char → Int} {threads : List ThreadFiles}
    {T : PathTree TraceFrame} {calls : List Call} (haccepts : AcceptedBy s.accepts threads)
    (hcalls : List.Forall₂ (CallOf s.leafInFull T) calls (s.kept threads))
    (hsize : T.nodes.length < 2 ^ 64)
    (hhash : NoCollision hash (Builder.new.hashedRun hash
      (.addMetricType 1 "cpu cycle".toList "cpu cycle".toList :: calls))) :
    ∃ b, Builder.new.run hash (.addMetricType 1 "cpu cycle".toList "cpu cycle".toList :: calls) =
        some b ∧ b.profile.Shows s.leafInFull (s.kept threads) := by
  obtain ⟨hok, hfits⟩ := s.calls_fit haccepts hcalls hsize
  have hzero : ∀ call ∈ Call.addMetricType 1 "cpu cycle".toList "cpu cycle".toList :: calls,
      ∀ msg ∈ call.contextMsgs, msg.contextId ≠ 0 :=
    List.forall_mem_cons.mpr ⟨by simp [Call.contextMsgs], fun call hcall => (hfits call hcall).2⟩
  obtain ⟨b, hrun⟩ := Builder.ok_new.exists_run hash hzero
    (List.forall_mem_cons.mpr ⟨rfl, fun call hcall => (hfits call hcall).1⟩)
  have hb := Builder.after_new.run hhash hzero (fun _ hs => hs) hrun
  -- the call for the metric type has no messages and no sample
  have hhistory : history (Call.addMetricType 1 "cpu cycle".toList "cpu cycle".toList :: calls) =
      history calls := rfl
  rw [hhistory, List.nil_append, List.nil_append] at hb
  obtain ⟨samples, hsamples⟩ := exists_lineSamples s.leafInFull hok fun _ h => h
  refine ⟨b, hrun, samples, ?_, hsamples⟩
  rw [← hsamples]
  exact decodeSamples_eq hb hcalls hok hcalls (fun _ h => h) (fun _ h => h) hb.sample

end KnownSection

/-- The files of the threads for the kinds of the sections. -/
def FilesOf (read : List Char → List Char) (threads : ProfileDict)
    (files : OutputKind → List ThreadFiles) (sections : List KnownSection) : Prop :=
  ∀ s ∈ sections, threads.sectionFiles read s.kind (threads.threadsOf s.kind) = some (files s.kind)

/-- The profiles of sections that share a context tree, each of its own lines. -/
theorem profiles_decode {hash : List Char → Int} {read : List Char → List Char}
    {threads : ProfileDict} (files : OutputKind → List ThreadFiles) {sections : List KnownSection}
    {contexts : List Context} {T : PathTree TraceFrame} (hT : Represents contexts T)
    (hfiles : FilesOf read threads files sections)
    (haccepts : ∀ s ∈ sections, AcceptedBy s.accepts (files s.kind))
    (hsize : T.nodes.length +
      (sections.map fun s => KnownSection.frameCount (files s.kind)).sum < 2 ^ 64)
    (hhash : ∀ calls ∈ sectionRuns read threads (sections.map KnownSection.toSection) contexts,
      NoCollision hash (Builder.new.hashedRun hash calls)) :
    List.Forall₂ (fun s p => p.Shows s.leafInFull (s.kept (files s.kind))) sections
      (profilesOf hash (sectionRuns read threads (sections.map KnownSection.toSection) contexts)) := by
  induction sections generalizing contexts T with
  | nil => exact .nil
  | cons s sections ih =>
      rw [FilesOf, List.forall_mem_cons] at hfiles
      rw [List.forall_mem_cons] at haccepts
      rw [List.map_cons, List.sum_cons] at hsize
      obtain ⟨calls, contexts', T', hcalls, hkept⟩ := s.spec.threads hT haccepts.1
      have hgrown : T'.nodes.length ≤ T.nodes.length + KnownSection.frameCount (files s.kind) :=
        hkept.size
      have hrun : s.toSection.calls read threads contexts =
          some (.addMetricType 1 "cpu cycle".toList "cpu cycle".toList :: calls, contexts') := by
        simp [Section.calls, hfiles.1, hcalls]
      rw [List.map_cons, sectionRuns, hrun, List.forall_mem_cons] at hhash
      -- the section's own profile, and behind it those of the others
      obtain ⟨b, hb, hshows⟩ := s.profile_shows haccepts.1 hkept.calls (by omega) hhash.1
      rw [List.map_cons, sectionRuns, hrun]
      simp only [profilesOf, hb]
      exact .cons hshows (ih hkept.represents hfiles.2 haccepts.2 (by omega) hhash.2)

end DroidPerf
