import DroidPerf.Process
import DroidPerf.MethodFileSound

/-!
# DroidPerf.LineSizeSound

Which lines fit the local buffer of `writef`.

A line of the method file carries all of `object_info`, and so its length depends on every
allocation and free of the process. The `Ledger` keeps account of that length and of nothing
else; with it the callbacks whose lines fit are known beforehand (`alwaysWritesFit_iff`). The
lines of the alloc file always fit.

Lengths are in bytes, as the VM hands names over: in modified UTF-8, where U+0000 takes two
bytes and a character beyond U+FFFF six (`Text.byteSize`).

The account is a fold over the events that never looks at the process. `Ledger.Agrees` relates
the two, with a lemma for each callback, the step lemma over all events and the run lemma
(`Ledger.agrees_run`). In a state that agrees with its account, `MethodEntry` returns if and
only if the account says so, since the loop over the frames fails at the first line that does
not fit (`foldlM_methodEntryFrame_ok_iff`).
-/

namespace DroidPerf

open Text

/-! ### The account

Of `object_info` only the length is kept. The recorded sites are kept in full, since a free
writes the identifiers of all of them anew. -/

/-- What is known from the events alone: the threads that were started, the methods that
have a line, the recorded sites, and the size of `object_info`. -/
structure Ledger where
  started : Nat → Bool
  methods : Nat → ListSet Nat
  sites : ListSet (List Char)
  infoSize : Nat

namespace Ledger

/-- Before the first event. -/
def start : Ledger := ⟨fun _ => false, fun _ => .empty, .empty, 0⟩

/-- A site takes its short identifier and two brackets. -/
def addSite (a : AllocArgs) (l : Ledger) (site : List Char × Int) : Ledger :=
  { l with
    sites := l.sites.insert (objIdentifier site.1 site.2 a.size a.tag)
    infoSize := l.infoSize + (byteSize (objShortIdentifier site.1 site.2 a.size) + 2) }

/-- The methods of the frames are added. -/
def addMethods (seen : ListSet Nat) (frames : List Frame) : ListSet Nat :=
  frames.foldl (fun seen frame => seen.insert frame.method) seen

/-- One event. A free leaves the identifiers of all sites, without brackets. -/
def step (l : Ledger) : ProcessEvent → Ledger
  | .threadStart tid _ =>
    { l with
      started := Function.update l.started tid true
      methods := Function.update l.methods tid .empty }
  | .objectAlloc tid args =>
    match l.started tid, args.stackTrace with
    | true, some frames =>
      (allocSites args frames.reverse (className args.classSignature)).foldl (addSite args) l
    | _, _ => l
  | .objectFree _ _ =>
    { l with infoSize := (l.sites.elems.map fun str => byteSize (shortIdentifier str)).sum }
  | .methodEntry tid stackTrace =>
    match l.started tid, stackTrace with
    | true, some frames =>
      { l with
        methods := Function.update l.methods tid (addMethods (l.methods tid) frames.reverse) }
    | _, _ => l

/-- Several events. -/
def run (events : List ProcessEvent) : Ledger := events.foldl step start

end Ledger

/-- The frames whose methods get a line: the first of each method that has none. -/
def newMethods (seen : ListSet Nat) : List Frame → List Frame
  | [] => []
  | frame :: frames =>
    if frame.method ∈ seen.elems then newMethods seen frames
    else frame :: newMethods (seen.insert frame.method) frames

/-- The id, the names and `object_info` leave room in the buffer for two blanks, `.java`
and the ends of the line and of the text. -/
def LineFits (infoSize : Nat) (frame : Frame) : Prop :=
  infoSize + byteSize (decimal (toInt32 frame.method)) + byteSize frame.methodName +
    byteSize (className frame.classSignature) + 9 ≤ localBufferSize

instance (infoSize : Nat) (frame : Frame) : Decidable (LineFits infoSize frame) :=
  inferInstanceAs (Decidable (_ ≤ _))

/-- The lines of an event fit, by the account. -/
def Ledger.Fits (l : Ledger) : ProcessEvent → Prop
  | .methodEntry tid (some frames) =>
    l.started tid = true →
      ∀ frame ∈ newMethods (l.methods tid) frames.reverse, LineFits l.infoSize frame
  | _ => True

/-! ### Method entry

The loop writes a line for the first frame of each new method. It adds to no length on its way,
so each line is compared with the same length of `object_info`. -/

/-- The length of a line of the method file. -/
theorem byteSize_methodLine (frame : Frame) (info : List Char) :
    byteSize (Fragment.methodLine frame.method frame.methodName
        (info ++ (className frame.classSignature ++ ".java".toList))).print =
      byteSize info + byteSize (decimal (toInt32 frame.method)) + byteSize frame.methodName +
        byteSize (className frame.classSignature) + 8 := by
  have hblank : charSize ' ' = 1 := by decide
  have hline : charSize '\n' = 1 := by decide
  have hjava : byteSize ".java".toList = 5 := by decide
  simp only [Fragment.print, byteSize_append, byteSize_cons, byteSize_nil, hblank, hline, hjava]
  omega

/-- A line is written exactly when it fits. -/
theorem writef_ok_iff {o : Output} {data : Fragment} :
    (∃ o', o.writef data = .ok o') ↔ byteSize data.print < localBufferSize := by
  unfold Output.writef
  constructor
  · rintro ⟨o', h⟩
    obtain ⟨_, hfits, _⟩ := bind_eq_ok.mp h
    exact of_decide_eq_true (assert_eq_ok.mp hfits)
  · intro h
    rw [decide_eq_true h]
    exact ⟨_, rfl⟩

/-- The line of a method is written exactly if it fits. -/
theorem writef_methodLine_iff {o : Output} {v : Variables} {frame : Frame} :
    (∃ o', o.writef (.methodLine frame.method frame.methodName (methodClass v frame)) = .ok o') ↔
      LineFits (byteSize v.globals.objectInfo) frame := by
  rw [writef_ok_iff, methodClass, byteSize_methodLine]
  unfold LineFits
  omega

/-- One frame: it is passed exactly when its method has a line or the line fits. -/
theorem methodEntryFrame_ok_iff {o : Output} {v : Variables} {frame : Frame × Nat} :
    (∃ q, methodEntryFrame (o, v) frame = .ok q) ↔
      (frame.1.method ∉ v.locals.methodIdList.elems →
        LineFits (byteSize v.globals.objectInfo) frame.1) := by
  rw [← writef_methodLine_iff (o := o)]
  unfold methodEntryFrame
  dsimp only
  split
  · rename_i hknown
    exact ⟨fun _ hnew => absurd hknown hnew, fun _ => ⟨_, rfl⟩⟩
  · rename_i hnew
    constructor
    · rintro ⟨q, h⟩ _
      obtain ⟨o', ho', -⟩ := bind_eq_ok.mp h
      exact ⟨o', ho'⟩
    · intro h
      obtain ⟨o', ho'⟩ := h hnew
      exact ⟨_, bind_eq_ok.mpr ⟨o', ho', rfl⟩⟩

/-- A frame that is passed has its method in the list. -/
theorem methodEntryFrame_methods {o : Output} {v : Variables} {frame : Frame × Nat}
    {q : Output × Variables} (h : methodEntryFrame (o, v) frame = .ok q) :
    q.2.globals = v.globals ∧
      q.2.locals.methodIdList = v.locals.methodIdList.insert frame.1.method := by
  obtain ⟨scope, -, ⟨hknown, rfl⟩ | ⟨-, o', -, rfl⟩⟩ := methodEntryFrame_cases h
  · exact ⟨rfl, (ListSet.insert_of_mem hknown).symm⟩
  · exact ⟨rfl, rfl⟩

/-- Frames that are passed have their methods in the list. -/
theorem foldlM_methodEntryFrame_methods {frames : List (Frame × Nat)} {o : Output}
    {v : Variables} {q : Output × Variables}
    (h : frames.foldlM methodEntryFrame (o, v) = .ok q) :
    q.2.globals = v.globals ∧ q.2.locals.methodIdList =
      Ledger.addMethods v.locals.methodIdList (frames.map Prod.fst) := by
  induction frames generalizing o v with
  | nil =>
      cases h
      exact ⟨rfl, rfl⟩
  | cons frame frames ih =>
      rw [List.foldlM_cons] at h
      obtain ⟨⟨o₁, v₁⟩, hframe, hrest⟩ := bind_eq_ok.mp h
      obtain ⟨hglobals, hmethods⟩ := methodEntryFrame_methods hframe
      obtain ⟨hglobals', hmethods'⟩ := ih hrest
      refine ⟨hglobals'.trans hglobals, ?_⟩
      rw [hmethods', hmethods]
      rfl

/-- The loop of `MethodEntry` writes the lines of the new methods, and reaches its end
exactly when they fit. -/
theorem foldlM_methodEntryFrame_ok_iff (frames : List (Frame × Nat)) (o : Output)
    (v : Variables) :
    (∃ q, frames.foldlM methodEntryFrame (o, v) = .ok q) ↔
      ∀ frame ∈ newMethods v.locals.methodIdList (frames.map Prod.fst),
        LineFits (byteSize v.globals.objectInfo) frame := by
  induction frames generalizing o v with
  | nil => exact ⟨fun _ frame hframe => (nomatch hframe), fun _ => ⟨_, rfl⟩⟩
  | cons frame frames ih =>
      -- the frames after this one find its method in the list
      have hrest : ∀ {q}, methodEntryFrame (o, v) frame = .ok q →
          ((∃ q', frames.foldlM methodEntryFrame q = .ok q') ↔
            ∀ frame' ∈ newMethods (v.locals.methodIdList.insert frame.1.method)
                (frames.map Prod.fst),
              LineFits (byteSize v.globals.objectInfo) frame') := by
        intro q hq
        obtain ⟨hglobals, hmethods⟩ := methodEntryFrame_methods hq
        rw [← hmethods, ← hglobals]
        exact ih q.1 q.2
      have hcons : (∃ q, (frame :: frames).foldlM methodEntryFrame (o, v) = .ok q) ↔
          ∃ q, methodEntryFrame (o, v) frame = .ok q ∧
            ∃ q', frames.foldlM methodEntryFrame q = .ok q' := by
        rw [List.foldlM_cons]
        simp only [bind_eq_ok]
        exact ⟨fun ⟨q', q, hq, hq'⟩ => ⟨q, hq, q', hq'⟩, fun ⟨q, hq, q', hq'⟩ => ⟨q', q, hq, hq'⟩⟩
      rw [hcons, List.map_cons, newMethods]
      split
      · -- the method has its line already
        rename_i hknown
        obtain ⟨q, hq⟩ := methodEntryFrame_ok_iff.mpr fun hnew => absurd hknown hnew
        rw [ListSet.insert_of_mem hknown] at hrest
        rw [← hrest hq]
        refine ⟨fun ⟨q', hq', h⟩ => ?_, fun h => ⟨q, hq, h⟩⟩
        exact Except.ok.inj (hq'.symm.trans hq) ▸ h
      · -- the line of this frame, and those of the later ones
        rename_i hnew
        rw [List.forall_mem_cons]
        constructor
        · rintro ⟨q, hq, h⟩
          exact ⟨methodEntryFrame_ok_iff.mp ⟨q, hq⟩ hnew, (hrest hq).mp h⟩
        · rintro ⟨hline, hlines⟩
          obtain ⟨q, hq⟩ := methodEntryFrame_ok_iff.mpr fun _ => hline
          exact ⟨q, hq, (hrest hq).mpr hlines⟩

/-! ### Allocations

The texts of an allocation are numbers, of which each takes at most twenty bytes. -/

/-- The lines of a table are of type `jint`. -/
def LineTable.IsJint (t : LineTable) : Prop :=
  ∀ entry ∈ t.first :: t.rest, -2 ^ 31 ≤ entry.lineNumber ∧ entry.lineNumber < 2 ^ 31

/-- The line tables of an allocation are as the VM gives them. -/
def ProcessEvent.JintLines : ProcessEvent → Prop
  | .objectAlloc _ args => ∀ frames, args.stackTrace = some frames → ∀ frame ∈ frames,
    ∀ t, frame.lineTable = some t → t.IsJint
  | _ => True

/-- The line found is one of the table's. -/
theorem scanLines_mem (location lineNumber : Int) (entries : List LineNumberEntry) :
    scanLines location lineNumber entries = lineNumber ∨
      ∃ entry ∈ entries, scanLines location lineNumber entries = entry.lineNumber := by
  induction entries generalizing lineNumber with
  | nil => exact .inl rfl
  | cons entry entries ih =>
      rw [scanLines]
      split
      · exact .inl rfl
      · rcases ih entry.lineNumber with h | ⟨found, hfound, h⟩
        · exact .inr ⟨entry, List.mem_cons_self, h⟩
        · exact .inr ⟨found, List.mem_cons_of_mem _ hfound, h⟩

/-- The three numbers of a scope take at most eleven bytes each. -/
theorem byteSize_scope_le {t : LineTable} (h : t.IsJint) (location : Int) :
    byteSize (t.scope location) ≤ 35 := by
  have hsize : ∀ {i : Int}, -2 ^ 31 ≤ i ∧ i < 2 ^ 31 → byteSize (decimal i) ≤ 11 :=
    fun hi => byteSize_decimal_le (by decide) (by omega)
  have hfirst := h t.first List.mem_cons_self
  have hline : -2 ^ 31 ≤ t.line location ∧ t.line location < 2 ^ 31 := by
    rcases scanLines_mem location t.first.lineNumber t.rest with heq | ⟨entry, hentry, heq⟩
    · rw [LineTable.line, heq]
      exact hfirst
    · rw [LineTable.line, heq]
      exact h entry (List.mem_cons_of_mem _ hentry)
  have hend : -2 ^ 31 ≤ t.lineEnd ∧ t.lineEnd < 2 ^ 31 := by
    unfold LineTable.lineEnd
    cases hlast : t.rest.getLast? with
    | none => exact hfirst
    | some entry => exact h entry (List.mem_cons_of_mem _ (List.mem_of_getLast? hlast))
  have hzero : charSize '0' = 1 := by decide
  have h₁ := hsize hline
  have h₂ := hsize hfirst
  have h₃ := hsize hend
  simp only [LineTable.scope, byteSize_append, byteSize_cons, hzero]
  omega

/-- A frame with three numbers fits. -/
theorem writef_frame_ok (scope : List Char) (h : byteSize scope ≤ 35) (o : Output)
    (method : Nat) : ∃ o', o.writef (.frame scope method) = .ok o' := by
  have hid : byteSize (decimal (toInt32 method)) ≤ 11 :=
    byteSize_decimal_le (by decide) (natAbs_toInt32_lt method)
  have hcolon : charSize ':' = 1 := by decide
  have hblank : charSize ' ' = 1 := by decide
  rw [writef_ok_iff]
  simp only [Fragment.print, byteSize_append, byteSize_cons, byteSize_nil, hcolon, hblank,
    localBufferSize]
  omega

/-- A piece with a counter fits. -/
theorem writef_count_ok (o : Output) (count : Nat) : ∃ o', o.writef (.count count) = .ok o' := by
  have hlt : (toInt64 count).natAbs < 10 ^ 19 := by
    unfold toInt64
    split <;> omega
  have hcount : byteSize (decimal (toInt64 count)) ≤ 20 := byteSize_decimal_le (by decide) hlt
  have hbar : charSize '|' = 1 := by decide
  have hline : charSize '\n' = 1 := by decide
  rw [writef_ok_iff]
  simp only [Fragment.print, byteSize_append, byteSize_cons, byteSize_nil, hbar, hline,
    localBufferSize]
  omega

/-- The texts of one frame of an allocation fit. -/
theorem allocFrame_ok {a : AllocArgs} {frame : Frame}
    (h : ∀ t, frame.lineTable = some t → t.IsJint) (l : AllocLoop) :
    ∃ l', allocFrame a l frame = .ok l' := by
  unfold allocFrame
  split
  · exact ⟨l, rfl⟩
  · cases hline : frame.lineTable with
    | none =>
        obtain ⟨o, ho⟩ := writef_frame_ok ['0'] (by decide) l.outputStreamAlloc frame.method
        exact ⟨_, bind_eq_ok.mpr ⟨o, ho, rfl⟩⟩
    | some t =>
        obtain ⟨o, ho⟩ := writef_frame_ok _ (byteSize_scope_le (h t hline) frame.location)
          (recordSite a (t.line frame.location) l).outputStreamAlloc frame.method
        exact ⟨_, bind_eq_ok.mpr ⟨o, ho, rfl⟩⟩

/-- The texts of a whole stack trace fit, frame by frame. -/
theorem allocTrace_ok {a : AllocArgs} {frames : List Frame}
    (h : ∀ frame ∈ frames, ∀ t, frame.lineTable = some t → t.IsJint) (count : Nat) (g : Globals)
    (o : Output) : ∃ q, allocTrace a frames count g o = .ok q := by
  have hloop : ∀ (rest : List Frame) (l : AllocLoop), (∀ frame ∈ rest, frame ∈ frames) →
      ∃ l', rest.foldlM (allocFrame a) l = .ok l' := by
    intro rest
    induction rest with
    | nil => exact fun l _ => ⟨l, rfl⟩
    | cons frame rest ih =>
        intro l hmem
        obtain ⟨hframe, hrest⟩ := List.forall_mem_cons.mp hmem
        obtain ⟨l₁, hl₁⟩ := allocFrame_ok (a := a) (h frame hframe) l
        obtain ⟨l', hl'⟩ := ih l₁ hrest
        exact ⟨l', by rw [List.foldlM_cons, hl₁]; exact hl'⟩
  obtain ⟨l, hl⟩ := hloop frames.reverse ⟨className a.classSignature, g, o, false⟩
    fun frame hframe => List.mem_reverse.mp hframe
  unfold allocTrace
  rw [hl, ok_bind]
  split
  · obtain ⟨o', ho'⟩ := writef_count_ok l.outputStreamAlloc count
    exact ⟨_, bind_eq_ok.mpr ⟨o', ho', rfl⟩⟩
  · exact ⟨_, rfl⟩

/-! ### Callbacks

Which streams a thread has is known from whether it was started. What the callbacks write into
them is of no interest here. -/

/-- Whether a thread has its context tree, its method stream and its alloc stream. -/
def Tls.opened (t : AgentTls) : Bool × Bool × Bool :=
  (t.current.contextState.isSome, t.current.outputState.isSome, t.current.outputStateAlloc.isSome)

@[simp] theorem opened_blockSample (w : AgentThread) :
    (blockSample w).tls.opened = w.tls.opened := rfl

@[simp] theorem opened_unblockSample (w : AgentThread) :
    (unblockSample w).tls.opened = w.tls.opened := rfl

/-- A thread that was started has all three. -/
theorem threadStart_opened {env : AgentEnv} {answers : Nat → Fin 8 → SetupAnswers}
    {w w' : AgentThread} (h : runCallback env (.threadStart answers) w = .ok w') :
    w'.tls.opened = (true, true, true) := by
  obtain ⟨-, -, perfState, hcurrent⟩ := threadStart_record h
  rw [Tls.opened, hcurrent]
  rfl

/-- What `ObjectAllocCallback` leaves as it is. -/
theorem objectAlloc_opened {env : AgentEnv} {args : AllocArgs} {w w' : AgentThread}
    (h : runCallback env (.objectAlloc args) w = .ok w') :
    w'.tls.opened = w.tls.opened ∧
      w'.user.locals.methodIdList = w.user.locals.methodIdList := by
  obtain ⟨w₁, hbody, h⟩ := bind_eq_ok.mp h
  cases h
  rw [opened_unblockSample]
  simp only [Callback.body, runStmts, objectAlloc, List.foldlM_cons, List.foldlM_nil,
    ok_bind] at hbody
  obtain ⟨w₂, htrace, hbody⟩ := bind_eq_ok.mp hbody
  cases hbody
  split at htrace
  · rename_i context o frames hcontext hout htaken
    obtain ⟨⟨globals, o'⟩, -, htrace⟩ := bind_eq_ok.mp htrace
    cases htrace
    refine ⟨?_, rfl⟩
    have hsome : w.tls.current.outputStateAlloc = some o := hout
    simp [Tls.opened, blockSample, hsome]
  · cases htrace
    exact ⟨rfl, rfl⟩

/-- `ObjectAllocCallback` returns: its lines fit. -/
theorem objectAlloc_ok {args : AllocArgs}
    (h : ∀ frames, args.stackTrace = some frames → ∀ frame ∈ frames, ∀ t,
      frame.lineTable = some t → t.IsJint) (env : AgentEnv) (w : AgentThread) :
    ∃ w', runCallback env (.objectAlloc args) w = .ok w' := by
  unfold runCallback
  simp only [Callback.body, runStmts, objectAlloc, List.foldlM_cons, List.foldlM_nil, ok_bind]
  split
  · rename_i context o frames hcontext hout htaken
    obtain ⟨q, hq⟩ := allocTrace_ok (a := args) (h frames htaken)
      (Function.update w.user.locals.objectAllocCounter args.object
        (add64 (w.user.locals.objectAllocCounter args.object) 1) args.object)
      (countAlloc args.size w.user.globals) o
    exact ⟨_, bind_eq_ok.mpr ⟨_, bind_eq_ok.mpr ⟨_, bind_eq_ok.mpr ⟨q, hq, rfl⟩, rfl⟩, rfl⟩⟩
  · exact ⟨_, rfl⟩

/-! ### The account is right

One lemma for each event, from what the callback does to the global variables and to the
thread. -/

/-- The account of a process. -/
structure Ledger.Agrees (l : Ledger) (p : Process) : Prop where
  opened : ∀ tid, (p.threads tid).tls.opened = (l.started tid, l.started tid, l.started tid)
  methods : ∀ tid, (p.threads tid).user.locals.methodIdList = l.methods tid
  sites : p.globals.objectLiveCycle = l.sites
  infoSize : byteSize p.globals.objectInfo = l.infoSize

/-- The empty account is right before the first event. -/
theorem Ledger.agrees_start : Ledger.start.Agrees .start :=
  ⟨fun _ => rfl, fun _ => rfl, rfl, rfl⟩

/-- A callback on one thread leaves the others as they are. -/
theorem Ledger.Agrees.call {l l' : Ledger} {p : Process} {tid : Nat} {w : AgentThread}
    (h : l.Agrees p)
    (hothers : ∀ other ≠ tid, l'.started other = l.started other ∧
      l'.methods other = l.methods other)
    (hopened : w.tls.opened = (l'.started tid, l'.started tid, l'.started tid))
    (hmethods : w.user.locals.methodIdList = l'.methods tid)
    (hsites : w.user.globals.objectLiveCycle = l'.sites)
    (hinfo : byteSize w.user.globals.objectInfo = l'.infoSize) :
    l'.Agrees ⟨Function.update p.threads tid w, w.user.globals⟩ := by
  refine ⟨fun other => ?_, fun other => ?_, hsites, hinfo⟩
  · rcases eq_or_ne other tid with rfl | hne
    · simpa only [Function.update_self] using hopened
    · simpa only [Function.update_of_ne hne, hothers other hne] using h.opened other
  · rcases eq_or_ne other tid with rfl | hne
    · simpa only [Function.update_self] using hmethods
    · simpa only [Function.update_of_ne hne, hothers other hne] using h.methods other

/-- Sites are added to the account as to the process. -/
theorem Ledger.foldl_addSite (a : AllocArgs) (sites : List (List Char × Int)) {g : Globals}
    {l : Ledger} (hsites : g.objectLiveCycle = l.sites)
    (hinfo : byteSize g.objectInfo = l.infoSize) :
    (sites.foldl (DroidPerf.addSite a) g).objectLiveCycle = (sites.foldl (addSite a) l).sites ∧
      byteSize (sites.foldl (DroidPerf.addSite a) g).objectInfo =
        (sites.foldl (addSite a) l).infoSize ∧
      (sites.foldl (addSite a) l).started = l.started ∧
      (sites.foldl (addSite a) l).methods = l.methods := by
  induction sites generalizing g l with
  | nil => exact ⟨hsites, hinfo, rfl, rfl⟩
  | cons site sites ih =>
      refine ih (l := l.addSite a site) ?_ ?_
      · show g.objectLiveCycle.insert _ = l.sites.insert _
        rw [hsites]
      · have hopen : charSize '[' = 1 := by decide
        have hclose : charSize ']' = 1 := by decide
        show byteSize (g.objectInfo ++ '[' :: (_ ++ [']'])) = l.infoSize + (_ + 2)
        rw [byteSize_append, byteSize_cons, byteSize_append, byteSize_cons, byteSize_nil, hinfo,
          hopen, hclose]
        omega

/-- A started thread records the sites of the stack, another thread records none. -/
theorem recordedSites_eq {w : AgentThread} {b : Bool} (h : w.tls.opened = (b, b, b))
    (args : AllocArgs) {l : Ledger} {tid : Nat} (hl : l.started tid = b) :
    l.step (.objectAlloc tid args) = (recordedSites w args).foldl (Ledger.addSite args) l := by
  have hcontext : w.tls.current.contextState.isSome = b := congrArg Prod.fst h
  have hout : w.tls.current.outputStateAlloc.isSome = b := congrArg (fun o => o.2.2) h
  unfold Ledger.step recordedSites
  dsimp only
  rw [hl]
  cases b with
  | false =>
      rw [Option.isSome_eq_false_iff, Option.isNone_iff_eq_none] at hcontext
      rw [hcontext]
      rfl
  | true =>
      obtain ⟨context, hcontext⟩ := Option.isSome_iff_exists.mp hcontext
      obtain ⟨o, hout⟩ := Option.isSome_iff_exists.mp hout
      rw [hcontext, hout]
      cases args.stackTrace <;> rfl

/-- An allocation: the sites of its stack, if the thread was started. -/
theorem Ledger.Agrees.objectAlloc {l : Ledger} {p : Process} {tid : Nat} {args : AllocArgs}
    {env : AgentEnv} {w : AgentThread} (h : l.Agrees p)
    (hcall : runCallback env (.objectAlloc args) (p.thread tid) = .ok w) :
    (l.step (.objectAlloc tid args)).Agrees ⟨Function.update p.threads tid w, w.user.globals⟩ := by
  obtain ⟨hopened, hmethods⟩ := objectAlloc_opened hcall
  have hglobals : w.user.globals = (recordedSites (p.thread tid) args).foldl
      (DroidPerf.addSite args) (countAlloc args.size p.globals) := by
    obtain ⟨w₁, hbody, hend⟩ := bind_eq_ok.mp hcall
    cases hend
    exact objectAlloc_globals hbody
  rw [recordedSites_eq (w := p.thread tid) (h.opened tid) args rfl]
  obtain ⟨hsites, hinfo, hstarted, hseen⟩ := foldl_addSite args
    (recordedSites (p.thread tid) args) (g := countAlloc args.size p.globals) h.sites h.infoSize
  refine h.call (fun other _ => ?_) ?_ ?_ ?_ ?_
  · rw [hstarted, hseen]
    exact ⟨rfl, rfl⟩
  · rw [hopened, hstarted]
    exact h.opened tid
  · rw [hmethods, hseen]
    exact h.methods tid
  · rw [hglobals]
    exact hsites
  · rw [hglobals]
    exact hinfo

/-- A free: `object_info` is made anew from the identifiers. -/
theorem Ledger.Agrees.objectFree {l : Ledger} {p : Process}
    {traversal : ListSet.Traversal (List Char)} {tag : Nat} {g : Globals} (h : l.Agrees p)
    (hfree : DroidPerf.objectFree traversal tag p.globals = .ok g) :
    (l.step (.objectFree traversal tag)).Agrees { p with globals := g } := by
  rw [objectFree_eq hfree]
  refine ⟨h.opened, h.methods, h.sites, ?_⟩
  have hflat : ∀ strs : List (List Char), byteSize (strs.flatMap shortIdentifier) =
      (strs.map fun str => byteSize (shortIdentifier str)).sum := by
    intro strs
    induction strs with
    | nil => rfl
    | cons str strs ih => rw [List.flatMap_cons, byteSize_append, ih, List.map_cons, List.sum_cons]
  show byteSize ((traversal.list p.globals.objectLiveCycle).flatMap shortIdentifier) = _
  rw [hflat, h.sites]
  exact ((traversal.perm l.sites).map _).sum_nat

/-- A thread is started, with no methods seen. -/
theorem Ledger.Agrees.threadStart {l : Ledger} {p : Process} {tid : Nat}
    {answers : Nat → Fin 8 → SetupAnswers} {env : AgentEnv} {w : AgentThread} (h : l.Agrees p)
    (hcall : runCallback env (.threadStart answers) (p.thread tid) = .ok w) :
    (l.step (.threadStart tid answers)).Agrees
      ⟨Function.update p.threads tid w, w.user.globals⟩ := by
  obtain ⟨-, huser⟩ := threadStart_eq hcall
  refine h.call (fun other hne => ?_) ?_ ?_ ?_ ?_
  · exact ⟨Function.update_of_ne hne _ _, Function.update_of_ne hne _ _⟩
  · rw [threadStart_opened hcall]
    simp only [step, Function.update_self]
  · rw [huser]
    simp only [step, Function.update_self]
  · rw [huser]
    exact h.sites
  · rw [huser]
    exact h.infoSize

/-- The frames of a stack trace from the last one on, without their positions. -/
theorem map_fst_zipIdx_reverse (frames : List Frame) :
    frames.zipIdx.reverse.map Prod.fst = frames.reverse := by
  rw [List.map_reverse, List.zipIdx_map_fst]

/-- A method is entered: the methods of its stack are in the list from then on. -/
theorem Ledger.Agrees.methodEntry {l : Ledger} {p : Process} {tid : Nat}
    {stackTrace : Option (List Frame)} {env : AgentEnv} {w : AgentThread} (h : l.Agrees p)
    (hcall : runCallback env (.methodEntry stackTrace) (p.thread tid) = .ok w) :
    (l.step (.methodEntry tid stackTrace)).Agrees
      ⟨Function.update p.threads tid w, w.user.globals⟩ := by
  have hout : (p.thread tid).tls.current.outputState.isSome = l.started tid :=
    congrArg (fun o => o.2.1) (h.opened tid)
  have hopened : (p.thread tid).tls.opened = _ := h.opened tid
  -- without a stream or a stack the callback does nothing, and neither does the account
  by_cases hidle : (p.thread tid).tls.current.outputState = none ∨ stackTrace = none
  · rw [methodEntry_idle hidle] at hcall
    cases hcall
    have hstep : l.step (.methodEntry tid stackTrace) = l := by
      unfold step
      dsimp only
      rcases hidle with hnone | rfl
      · rw [hnone] at hout
        rw [← hout]
        rfl
      · cases l.started tid <;> rfl
    rw [hstep]
    exact h.call (fun _ _ => ⟨rfl, rfl⟩) hopened (h.methods tid) h.sites h.infoSize
  · obtain ⟨hsome, htaken⟩ := not_or.mp hidle
    obtain ⟨o, ho⟩ := Option.ne_none_iff_exists'.mp hsome
    obtain ⟨frames, rfl⟩ := Option.ne_none_iff_exists'.mp htaken
    rw [methodEntry_eq ho] at hcall
    obtain ⟨q, hloop, hw⟩ := map_eq_ok.mp hcall
    cases hw
    obtain ⟨hglobals, hmethods⟩ := foldlM_methodEntryFrame_methods hloop
    rw [map_fst_zipIdx_reverse] at hmethods
    have hstarted : l.started tid = true := by rw [← hout, ho]; rfl
    have hstep : l.step (.methodEntry tid (some frames)) = { l with
        methods := Function.update l.methods tid (addMethods (l.methods tid) frames.reverse) } := by
      unfold step
      dsimp only
      rw [hstarted]
    rw [hstep]
    refine h.call (fun other hne => ⟨rfl, Function.update_of_ne hne _ _⟩) ?_ ?_ ?_ ?_
    · rw [← hopened]
      simp [Tls.opened, blockSample, unblockSample, ho]
    · show q.2.locals.methodIdList = Function.update l.methods tid _ tid
      rw [hmethods, Function.update_self]
      exact congrArg (addMethods · frames.reverse) (h.methods tid)
    · show q.2.globals.objectLiveCycle = _
      rw [hglobals]
      exact h.sites
    · show byteSize q.2.globals.objectInfo = _
      rw [hglobals]
      exact h.infoSize

/-- The step lemma: each event takes the account along. -/
theorem Ledger.Agrees.step {l : Ledger} {p p' : Process} {event : ProcessEvent} {env : AgentEnv}
    (h : l.Agrees p) (hstep : p.step env event = .ok p') : (l.step event).Agrees p' := by
  cases event with
  | threadStart tid answers =>
      obtain ⟨w, hcall, hw⟩ := bind_eq_ok.mp hstep
      cases hw
      exact h.threadStart hcall
  | objectAlloc tid args =>
      obtain ⟨w, hcall, hw⟩ := bind_eq_ok.mp hstep
      cases hw
      exact h.objectAlloc hcall
  | objectFree traversal tag =>
      obtain ⟨g, hfree, hg⟩ := map_eq_ok.mp hstep
      cases hg
      exact h.objectFree hfree
  | methodEntry tid stackTrace =>
      obtain ⟨w, hcall, hw⟩ := bind_eq_ok.mp hstep
      cases hw
      exact h.methodEntry hcall

/-- The run lemma: the account of a run is right at its end. -/
theorem Ledger.agrees_run {env : AgentEnv} {events : List ProcessEvent} {p : Process}
    (h : Process.run env events = .ok p) : (Ledger.run events).Agrees p := by
  have hrun : ∀ (events : List ProcessEvent) (l : Ledger) (q : Process), l.Agrees q →
      events.foldlM (Process.step env) q = .ok p → (events.foldl Ledger.step l).Agrees p := by
    intro events
    induction events with
    | nil =>
        intro l q hq h
        cases h
        exact hq
    | cons event events ih =>
        intro l q hq h
        rw [List.foldlM_cons] at h
        obtain ⟨q', hstep, hrest⟩ := bind_eq_ok.mp h
        exact ih _ q' (hq.step hstep) hrest
  exact hrun events _ _ agrees_start h

/-! ### Every run

The texts fit if the callback returns. That the account is right says which callbacks return,
in the state that any run before leads to. -/

/-- The texts that a callback hands to `writef` fit the buffer: the callback returns.
`ObjectAllocCallback` and `MethodEntry` have no assertion but that of `writef`; the other
two write nothing. -/
def WritesFit (env : AgentEnv) (p : Process) : ProcessEvent → Prop
  | .objectAlloc tid args => ∃ p', p.step env (.objectAlloc tid args) = .ok p'
  | .methodEntry tid stackTrace => ∃ p', p.step env (.methodEntry tid stackTrace) = .ok p'
  | _ => True

/-- A callback of the process returns if it returns on its thread. -/
theorem call_ok_iff {env : AgentEnv} {p : Process} {tid : Nat} {callback : Callback} :
    (∃ p', p.call env tid callback = .ok p') ↔
      ∃ w, runCallback env callback (p.thread tid) = .ok w := by
  constructor
  · rintro ⟨p', h⟩
    obtain ⟨w, hw, -⟩ := bind_eq_ok.mp h
    exact ⟨w, hw⟩
  · rintro ⟨w, hw⟩
    exact ⟨_, bind_eq_ok.mpr ⟨w, hw, rfl⟩⟩

/-- The texts of an allocation fit. -/
theorem objectAlloc_writesFit {tid : Nat} {args : AllocArgs}
    (hlines : (ProcessEvent.objectAlloc tid args).JintLines) (env : AgentEnv) (p : Process) :
    WritesFit env p (.objectAlloc tid args) :=
  call_ok_iff.mpr (objectAlloc_ok hlines env (p.thread tid))

/-- Those of `MethodEntry` fit if the account says so. -/
theorem Ledger.Agrees.methodEntry_writesFit_iff {l : Ledger} {p : Process} (h : l.Agrees p)
    (env : AgentEnv) (tid : Nat) (stackTrace : Option (List Frame)) :
    WritesFit env p (.methodEntry tid stackTrace) ↔ l.Fits (.methodEntry tid stackTrace) := by
  have hout : (p.thread tid).tls.current.outputState.isSome = l.started tid :=
    congrArg (fun o => o.2.1) (h.opened tid)
  refine call_ok_iff.trans ?_
  cases stackTrace with
  | none =>
      rw [methodEntry_idle (.inr rfl)]
      exact ⟨fun _ => trivial, fun _ => ⟨_, rfl⟩⟩
  | some frames =>
      unfold Fits
      dsimp only
      cases ho : (p.thread tid).tls.current.outputState with
      | none =>
          rw [methodEntry_idle (.inl ho), ← hout, ho]
          exact ⟨fun _ hstarted => (nomatch hstarted), fun _ => ⟨_, rfl⟩⟩
      | some o =>
          have hmethods : (p.thread tid).user.clearCallpath.locals.methodIdList =
              l.methods tid := h.methods tid
          have hinfo : byteSize (p.thread tid).user.clearCallpath.globals.objectInfo =
              l.infoSize := h.infoSize
          have hloop := foldlM_methodEntryFrame_ok_iff frames.zipIdx.reverse o
            (p.thread tid).user.clearCallpath
          rw [map_fst_zipIdx_reverse, hmethods, hinfo] at hloop
          rw [methodEntry_eq ho, ← hout, ho, Option.isSome_some, imp_iff_right rfl, ← hloop]
          simp only [map_eq_ok]
          exact ⟨fun ⟨_, q, hq, _⟩ => ⟨q, hq⟩, fun ⟨q, hq⟩ => ⟨_, q, hq, rfl⟩⟩

/-- In every reachable state the account says which callbacks return. -/
theorem writesFit_iff {env : AgentEnv} {events : List ProcessEvent} {p : Process}
    (hrun : Process.run env events = .ok p) {event : ProcessEvent} (hlines : event.JintLines) :
    WritesFit env p event ↔ (Ledger.run events).Fits event := by
  cases event with
  | threadStart tid answers => exact Iff.rfl
  | objectAlloc tid args => exact iff_of_true (objectAlloc_writesFit hlines env p) trivial
  | objectFree traversal tag => exact Iff.rfl
  | methodEntry tid stackTrace =>
      exact (Ledger.agrees_run hrun).methodEntry_writesFit_iff env tid stackTrace

/-- **Lines that fit.** In every run the texts for `writef` fit its buffer exactly when, by the
account of the events before it, every `MethodEntry` leaves room for `object_info` in the lines
of its new methods. Lengths are in bytes of modified UTF-8. -/
theorem alwaysWritesFit_iff (env : AgentEnv) {events : List ProcessEvent}
    (hlines : ∀ event ∈ events, event.JintLines) :
    (∀ before event after, events = before ++ event :: after →
        ∀ p, Process.run env before = .ok p → WritesFit env p event) ↔
      ∀ before event after, events = before ++ event :: after →
        (∃ p, Process.run env before = .ok p) → (Ledger.run before).Fits event := by
  have hmem : ∀ {before event after}, events = before ++ event :: after → event.JintLines := by
    intro before event after heq
    exact hlines event (heq ▸ List.mem_append_right _ List.mem_cons_self)
  constructor
  · intro h before event after heq hreached
    obtain ⟨p, hrun⟩ := hreached
    exact (writesFit_iff hrun (hmem heq)).mp (h before event after heq p hrun)
  · intro h before event after heq p hrun
    exact (writesFit_iff hrun (hmem heq)).mpr (h before event after heq ⟨p, hrun⟩)

/-- The class and method names of an event have less than 256 bytes. -/
def ProcessEvent.ShortNames : ProcessEvent → Prop
  | .objectAlloc _ args => byteSize (className args.classSignature) < 256
  | .methodEntry _ stackTrace => ∀ frames, stackTrace = some frames → ∀ frame ∈ frames,
    byteSize frame.methodName < 256 ∧ byteSize (className frame.classSignature) < 256
  | _ => True

/-- A thread is started; the kernel refuses its events. -/
def startQuietly (tid : Nat) : ProcessEvent :=
  .threadStart tid fun _ _ => ⟨-1, 0, 0, 0, 0, none⟩

/-- A method of the class `a.B`, in line 5. -/
def frameB (method : Nat) : Frame :=
  ⟨method, 0, "f".toList, "La/B;".toList, some ⟨⟨0, 5⟩, []⟩⟩

theorem jint_frameB {method : Nat} {t : LineTable} (h : (frameB method).lineTable = some t) :
    t.IsJint := by
  cases h
  intro entry hentry
  rw [List.mem_singleton.mp hentry]
  decide

/-- An object is allocated before the method is entered. -/
theorem alwaysWritesFit_iff_one_object :
    ∃ p, Process.run ⟨genericEnv, []⟩ [startQuietly 7, .objectAlloc 7 allocB] = .ok p ∧
      WritesFit ⟨genericEnv, []⟩ p (.methodEntry 7 (some [frameB 16])) := by
  have hlines : ∀ event ∈ [startQuietly 7, .objectAlloc 7 allocB,
      .methodEntry 7 (some [frameB 16])], event.JintLines := by
    intro event hevent
    simp only [List.mem_cons, List.not_mem_nil, or_false] at hevent
    rcases hevent with rfl | rfl | rfl
    · trivial
    · intro frames hframes frame hframe t ht
      cases hframes
      rw [List.mem_singleton.mp hframe] at ht
      exact jint_frameB ht
    · trivial
  obtain ⟨p, hp⟩ : ∃ p, Process.run ⟨genericEnv, []⟩ [startQuietly 7, .objectAlloc 7 allocB] =
      .ok p := ⟨_, rfl⟩
  refine ⟨p, hp, (alwaysWritesFit_iff ⟨genericEnv, []⟩ hlines).mpr ?_ _ _ [] rfl p hp⟩
  intro before event after heq _
  match before with
  | [] =>
      cases heq
      trivial
  | [_] =>
      cases heq
      trivial
  | [_, _] =>
      cases heq
      intro _
      decide +kernel
  | _ :: _ :: _ :: _ => simp at heq

/-- An object of 32 bytes of a class whose name has 240 letters. -/
def allocLong : AllocArgs :=
  ⟨1, 32, 3, 'L' :: (List.replicate 240 'a' ++ [';']), 0, some [frameB 16, frameB 17]⟩

/-- Two such objects fill the buffer with the four sites that they are recorded by. -/
theorem alwaysWritesFit_fails_two_objects :
    ¬ ∀ (env : AgentEnv) (events : List ProcessEvent),
      (∀ event ∈ events, event.JintLines ∧ event.ShortNames) →
        ∀ before event after, events = before ++ event :: after →
          ∀ p, Process.run env before = .ok p → WritesFit env p event := by
  intro h
  have hjint : ∀ tid, (ProcessEvent.objectAlloc tid allocLong).JintLines := by
    intro tid frames hframes frame hframe t ht
    cases hframes
    simp only [List.mem_cons, List.not_mem_nil, or_false] at hframe
    rcases hframe with rfl | rfl
    · exact jint_frameB ht
    · exact jint_frameB ht
  have hshort : byteSize (className allocLong.classSignature) < 256 := by decide +kernel
  obtain ⟨p₁, hp₁⟩ : ∃ p, Process.step ⟨genericEnv, []⟩ .start (startQuietly 7) = .ok p :=
    ⟨_, rfl⟩
  obtain ⟨p₂, hp₂⟩ := objectAlloc_writesFit (hjint 7) ⟨genericEnv, []⟩ p₁
  obtain ⟨p₃, hp₃⟩ := objectAlloc_writesFit (hjint 7) ⟨genericEnv, []⟩ p₂
  have hrun : Process.run ⟨genericEnv, []⟩
      [startQuietly 7, .objectAlloc 7 allocLong, .objectAlloc 7 allocLong] = .ok p₃ := by
    simp only [Process.run, List.foldlM_cons, List.foldlM_nil, hp₁, hp₂, hp₃, ok_bind]
    rfl
  have hfits := h ⟨genericEnv, []⟩ [startQuietly 7, .objectAlloc 7 allocLong,
    .objectAlloc 7 allocLong, .methodEntry 7 (some [frameB 16])] (by
      intro event hevent
      simp only [List.mem_cons, List.not_mem_nil, or_false] at hevent
      rcases hevent with rfl | rfl | rfl | rfl
      · exact ⟨trivial, trivial⟩
      · exact ⟨hjint 7, hshort⟩
      · exact ⟨hjint 7, hshort⟩
      · refine ⟨trivial, fun frames hframes frame hframe => ?_⟩
        cases hframes
        rw [List.mem_singleton.mp hframe]
        decide +kernel) _ _ [] rfl p₃ hrun
  have hentry : (ProcessEvent.methodEntry 7 (some [frameB 16])).JintLines := trivial
  have hline := (writesFit_iff hrun hentry).mp hfits (by decide +kernel) (frameB 16)
    (by decide +kernel)
  exact absurd hline (by decide +kernel)

end DroidPerf
