import DroidPerf.RecorderSound
import DroidPerf.LineScopeSound

/-!
# DroidPerf.RecordingsSound

What is in the recordings of a run.

`VmMethods` is what the VM has to keep to: one name and one class for each method, ids that are
told apart when they are printed, and names that are single words. Then every recording of a
run is good (`Recorder.Reaches.good`): its rows have the names of the VM, and its call paths
are of methods that have rows.

`Good` is stated for a recording, for a thread and for the recorder, and each level has its
lemmas for the changes it can make. A recording never loses rows, so a call path stays good
when methods are added (`OnRows.mono`). How many bytes were allocated is carried along, to
bound the memory in use.
-/

namespace DroidPerf

open Text

/-! ### Words

The files are split at spaces and line ends, so what is written between them must have none. -/

/-- Text that is one word of a line. -/
def OneWord (s : List Char) : Prop := ∀ c ∈ s, c ≠ ' ' ∧ c ≠ '\n' ∧ c ≠ '\r'

instance (s : List Char) : Decidable (OneWord s) :=
  List.decidableBAll (fun c => c ≠ ' ' ∧ c ≠ '\n' ∧ c ≠ '\r') s

/-- Two words put together are one. -/
theorem OneWord.append {s t : List Char} (hs : OneWord s) (ht : OneWord t) : OneWord (s ++ t) :=
  List.forall_mem_append.mpr ⟨hs, ht⟩

/-- A character that separates nothing can stand in front of a word. -/
theorem OneWord.cons {s : List Char} {c : Char} (hc : c ≠ ' ' ∧ c ≠ '\n' ∧ c ≠ '\r')
    (hs : OneWord s) : OneWord (c :: s) :=
  List.forall_mem_cons.mpr ⟨hc, hs⟩

/-- A word has no space in it. -/
theorem OneWord.blank_notMem {s : List Char} (h : OneWord s) : ' ' ∉ s :=
  fun hmem => (h ' ' hmem).1 rfl

/-- A word has no line end in it. -/
theorem OneWord.oneLine {s : List Char} (h : OneWord s) : OneLine s := fun c hc => (h c hc).2

/-- A number is a word. -/
theorem oneWord_decimal (i : Int) : OneWord (decimal i) := by
  intro c hc
  have hne : ∀ d : Char, d ≠ '-' → d.isDigit = false → c ≠ d := by
    intro d hsign hdigit heq
    exact (numeric_decimal i).notMem hsign hdigit (heq ▸ hc)
  exact ⟨hne ' ' (by decide) (by decide), hne '\n' (by decide) (by decide),
    hne '\r' (by decide) (by decide)⟩

/-- The class has the characters of the signature, and dots. -/
theorem mem_className {signature : List Char} {c : Char} (h : c ∈ className signature) :
    c = '.' ∨ c ∈ signature := by
  obtain ⟨d, hd, rfl⟩ := List.mem_map.mp h
  have hd : d ∈ signature := List.mem_of_mem_drop (List.mem_of_mem_take hd)
  split
  · exact .inl rfl
  · exact .inr hd

/-- The class of a signature is a word if the signature is one. -/
theorem oneWord_className {signature : List Char} (h : OneWord signature) :
    OneWord (className signature) := by
  intro c hc
  rcases mem_className hc with rfl | hc
  · decide
  · exact h c hc

/-! ### The VM

The assumptions about the virtual machine, all of them about what it answers. -/

/-- The methods of a VM. -/
structure VmMethods where
  methods : List Nat
  name : Nat → List Char
  signature : Nat → List Char
  names : ∀ m ∈ methods, OneWord (name m) ∧ ']' ∉ name m
  signatures : ∀ m ∈ methods, OneWord (signature m) ∧ ']' ∉ signature m
  printed : ∀ m ∈ methods, ∀ m' ∈ methods, toInt32 m = toInt32 m' → m = m'
  notBuiltin : ∀ m ∈ methods, builtinMethods (toInt32 m) = none

namespace VmMethods

/-- A frame that the VM tells about. -/
structure Frame (vm : VmMethods) (frame : DroidPerf.Frame) : Prop where
  method : frame.method ∈ vm.methods
  name : frame.methodName = vm.name frame.method
  signature : frame.classSignature = vm.signature frame.method
  lines : ∀ t, frame.lineTable = some t → ∀ entry ∈ t.first :: t.rest,
    0 < entry.lineNumber ∧ entry.lineNumber < 2 ^ 16

/-- An allocation that the VM tells about. -/
structure Alloc (vm : VmMethods) (args : AllocArgs) : Prop where
  signature : OneWord args.classSignature
  size : 0 < args.size
  frames : ∀ frames, args.stackTrace = some frames → ∀ frame ∈ frames, vm.Frame frame

/-- An event that the VM causes. Objects are not freed, which only happens to those that have
a tag. -/
def Event (vm : VmMethods) : AgentEvent → Prop
  | .call _ (.methodEntry stackTrace) =>
    ∀ frames, stackTrace = some frames → ∀ frame ∈ frames, vm.Frame frame
  | .call _ (.objectAlloc args) => vm.Alloc args
  | .objectAllocEnter _ args => vm.Alloc args
  | .objectAllocLeave _ args => vm.Alloc args
  | .objectFree _ _ => False
  | _ => True

end VmMethods

/-- The bytes that an event allocates. -/
def AgentEvent.allocated : AgentEvent → Nat
  | .call _ (.objectAlloc args) => args.size
  | .objectAllocEnter _ args => args.size
  | _ => 0

/-! ### The text of the live objects

It stands in front of the class in a row. `CleanInfo` says that it can be cut off again. -/

/-- Text of which nothing is left behind the last bracket. -/
structure CleanInfo (info : List Char) : Prop where
  oneWord : OneWord info
  strips : ∀ name : List Char, ']' ∉ name → afterLast ']' (info ++ name) = name

/-- Without live objects the text is clean. -/
theorem cleanInfo_nil : CleanInfo [] :=
  ⟨by decide, fun _ hname => afterLast_of_notMem hname⟩

/-- A site whose name is a word leaves the text clean. -/
theorem CleanInfo.addSite {args : AllocArgs} {g : Globals} {site : List Char × Int}
    (h : CleanInfo g.objectInfo) (hsite : OneWord site.1) :
    CleanInfo (addSite args g site).objectInfo := by
  have hln : OneWord ";LN".toList := by decide
  have hsz : OneWord ";sz".toList := by decide
  have hclose : OneWord [']'] := by decide
  have hshort : OneWord (objShortIdentifier site.1 site.2 args.size) :=
    (((hsite.append hln).append (oneWord_decimal _)).append hsz).append (oneWord_decimal _)
  refine ⟨h.oneWord.append ((hshort.append hclose).cons (by decide)), fun name hname => ?_⟩
  have htext : (DroidPerf.addSite args g site).objectInfo ++ name =
      (g.objectInfo ++ '[' :: objShortIdentifier site.1 site.2 args.size) ++ ']' :: name := by
    simp [DroidPerf.addSite]
  rw [htext]
  exact afterLast_append hname

/-- The class name of a site is that of the object, with endings. -/
theorem allocSites_name {P : List Char → Prop} (hjava : ∀ name, P name → P (name ++ ".java".toList))
    (args : AllocArgs) (frames : List Frame) {name : List Char} (h : P name) :
    ∀ site ∈ allocSites args frames name, P site.1 := by
  induction frames generalizing name with
  | nil => simp [allocSites]
  | cons frame frames ih =>
      unfold allocSites
      split
      · exact ih h
      · split
        · exact ih h
        · split
          · exact List.forall_mem_cons.mpr ⟨hjava name h, ih (hjava name h)⟩
          · exact ih h

/-- Several sites whose names are words leave the text clean. -/
theorem CleanInfo.foldl_addSite {args : AllocArgs} {sites : List (List Char × Int)} {g : Globals}
    (h : CleanInfo g.objectInfo) (hsites : ∀ site ∈ sites, OneWord site.1) :
    CleanInfo (sites.foldl (DroidPerf.addSite args) g).objectInfo := by
  induction sites generalizing g with
  | nil => exact h
  | cons site sites ih =>
      obtain ⟨hsite, hrest⟩ := List.forall_mem_cons.mp hsites
      exact ih (h.addSite hsite) hrest

/-! ### Line scopes

The three lines of a scope, joined by zeros, must be a number that fits 64 bits. Lines of a
class file fit 16 bits, so seventeen digits are enough. -/

/-- A line scope that the converter reads as a number it can store. -/
def LineScope (scope : List Char) : Prop := ∃ i : Int, 0 ≤ i ∧ i < 2 ^ 63 ∧ scope = decimal i

/-- A line scope is a number. -/
theorem LineScope.numeric {scope : List Char} (h : LineScope scope) : Numeric scope := by
  obtain ⟨i, -, -, rfl⟩ := h
  exact numeric_decimal i

/-- The scope of a frame without a line. -/
theorem lineScope_zero : LineScope ['0'] := ⟨0, by decide, by decide, by decide⟩

/-- The line that is found is that of an entry. -/
theorem LineTable.exists_line (t : LineTable) (location : Int) :
    ∃ entry ∈ t.first :: t.rest, t.line location = entry.lineNumber := by
  rcases scanLines_mem location t.first.lineNumber t.rest with heq | ⟨entry, hentry, heq⟩
  · exact ⟨t.first, List.mem_cons_self, heq⟩
  · exact ⟨entry, List.mem_cons_of_mem _ hentry, heq⟩

/-- The last line is that of an entry. -/
theorem LineTable.exists_lineEnd (t : LineTable) :
    ∃ entry ∈ t.first :: t.rest, t.lineEnd = entry.lineNumber := by
  unfold LineTable.lineEnd
  cases hlast : t.rest.getLast? with
  | none => exact ⟨t.first, List.mem_cons_self, rfl⟩
  | some entry => exact ⟨entry, List.mem_cons_of_mem _ (List.mem_of_getLast? hlast), rfl⟩

/-- A line has five digits at most. -/
theorem length_decimal_le {i : Int} (h : 0 < i) (hi : i < 2 ^ 16) : (decimal i).length ≤ 5 := by
  obtain ⟨n, rfl⟩ := Int.eq_ofNat_of_zero_le h.le
  exact (Nat.length_toDigits_le_iff (by decide) (by decide)).mpr (by omega)

/-- The three lines of a scope have seventeen digits at most. -/
theorem lineScope_scope {t : LineTable} (h : ∀ entry ∈ t.first :: t.rest,
    0 < entry.lineNumber ∧ entry.lineNumber < 2 ^ 16) (location : Int) :
    LineScope (t.scope location) := by
  obtain ⟨entry, hentry, hline⟩ := t.exists_line location
  obtain ⟨last, hlast, hend⟩ := t.exists_lineEnd
  obtain ⟨hpos, hlt⟩ := hline ▸ h entry hentry
  obtain ⟨hpos', hlt'⟩ := h t.first List.mem_cons_self
  obtain ⟨hpos'', hlt''⟩ := hend ▸ h last hlast
  -- the joined lines are the digits of a positive number
  have hnumeral : Numeral (t.scope location) := (numeral_decimal hpos).append_zero
    ((numeral_decimal hpos').append_zero (numeral_decimal hpos''))
  obtain ⟨i, hi, -, htext⟩ := exists_decimal hnumeral
  have hlen : (decimal i).length ≤ 17 := by
    have h₁ := length_decimal_le hpos hlt
    have h₂ := length_decimal_le hpos' hlt'
    have h₃ := length_decimal_le hpos'' hlt''
    rw [htext, LineTable.scope]
    simp only [List.length_append, List.length_cons]
    omega
  refine ⟨i, hi.le, ?_, htext.symm⟩
  obtain ⟨n, rfl⟩ := Int.eq_ofNat_of_zero_le hi.le
  have hn : n < 10 ^ 17 := (Nat.length_toDigits_le_iff (by decide) (by decide)).mp hlen
  omega

/-- The scope of a frame of `MethodEntry` is a line scope. -/
theorem VmMethods.Frame.entryScope {vm : VmMethods} {frame : DroidPerf.Frame} (h : vm.Frame frame)
    (i : Nat) : LineScope (entryScope frame i) := by
  unfold DroidPerf.entryScope
  split
  · split
    · exact lineScope_zero
    · rename_i t ht
      exact lineScope_scope (h.lines t ht) _
  · exact lineScope_zero

/-- The scope of a frame of an allocation is a line scope. -/
theorem VmMethods.Frame.allocScope {vm : VmMethods} {frame : DroidPerf.Frame} (h : vm.Frame frame) :
    LineScope (allocScope frame) := by
  unfold DroidPerf.allocScope
  split
  · exact lineScope_zero
  · rename_i t ht
    exact lineScope_scope (h.lines t ht) _

/-! ### Good recordings

Rows, samples and allocations that the converter can read, and that mean the methods of the VM. -/

/-- A call path of methods that have rows. -/
def OnRows (rows : List MethodRow) (path : List (Nat × List Char)) : Prop :=
  ∀ frame ∈ path, frame.1 ∈ rows.map MethodRow.method ∧ LineScope frame.2

/-- More rows do no harm. -/
theorem OnRows.mono {rows rows' : List MethodRow} {path : List (Nat × List Char)}
    (h : OnRows rows path) (hsub : rows.map MethodRow.method ⊆ rows'.map MethodRow.method) :
    OnRows rows' path :=
  fun frame hframe => ⟨hsub (h frame hframe).1, (h frame hframe).2⟩

/-- A row with the names that the VM has for its method. -/
structure VmMethods.Row (vm : VmMethods) (row : MethodRow) : Prop where
  method : row.method ∈ vm.methods
  name : row.name = vm.name row.method
  classText : ∃ info, CleanInfo info ∧
    row.className = info ++ (className (vm.signature row.method) ++ ".java".toList)

/-- A recording of the methods of a VM. -/
structure Recording.Good (vm : VmMethods) (r : Recording) : Prop where
  rows : ∀ row ∈ r.rows, vm.Row row
  nodup : (r.rows.map MethodRow.method).Nodup
  samples : ∀ s ∈ r.samples, OnRows r.rows s.callpathVec ∧ s.activeMemoryUsage < 2 ^ 31
  allocs : ∀ a ∈ r.allocs,
    (∀ frame ∈ a.1, frame.1 ∈ vm.methods ∧ LineScope frame.2) ∧ a.2 < 2 ^ 31

/-- The empty recording is good. -/
theorem Recording.good_empty (vm : VmMethods) : Recording.empty.Good vm :=
  ⟨nofun, List.nodup_nil, nofun, nofun⟩

section Enter

variable {vm : VmMethods} {r : Recording} {info : List Char} {frame : Frame}

/-- A method is entered for the first time, or once more. -/
theorem Recording.Good.enter (h : r.Good vm) (hinfo : CleanInfo info) (hframe : vm.Frame frame) :
    (r.enter info frame).Good vm := by
  unfold Recording.enter
  split
  · exact h
  · rename_i hmem
    refine ⟨?_, ?_, fun s hs => ⟨?_, (h.samples s hs).2⟩, h.allocs⟩
    · refine List.forall_mem_append.mpr ⟨h.rows, fun row hrow => ?_⟩
      rw [List.mem_singleton.mp hrow]
      refine ⟨hframe.method, hframe.name, info, hinfo, ?_⟩
      show info ++ (className frame.classSignature ++ _) =
        info ++ (className (vm.signature frame.method) ++ _)
      rw [hframe.signature]
    · rw [List.map_append, List.nodup_append]
      refine ⟨h.nodup, List.nodup_singleton _, ?_⟩
      intro m hm m' hm' heq
      have hm' : m' = frame.method := List.mem_singleton.mp hm'
      rw [heq, hm'] at hm
      exact hmem hm
    · refine (h.samples s hs).1.mono ?_
      rw [List.map_append]
      exact List.subset_append_left _ _

/-- A method that is entered has a row afterwards. -/
theorem mem_rows_enter (info : List Char) (r : Recording) (frame : Frame) :
    r.rows.map MethodRow.method ⊆ (r.enter info frame).rows.map MethodRow.method ∧
      frame.method ∈ (r.enter info frame).rows.map MethodRow.method := by
  unfold Recording.enter
  split
  · rename_i hmem
    exact ⟨fun m hm => hm, hmem⟩
  · rw [List.map_append]
    refine ⟨List.subset_append_left _ _, List.mem_append_right _ ?_⟩
    exact List.mem_singleton_self _

/-- All methods of a stack trace have rows after it. -/
theorem Recording.Good.enterAll {frames : List Frame} (h : r.Good vm) (hinfo : CleanInfo info)
    (hframes : ∀ frame ∈ frames, vm.Frame frame) : (r.enterAll info frames).Good vm ∧
      ∀ frame ∈ frames, frame.method ∈ (r.enterAll info frames).rows.map MethodRow.method := by
  -- from the root on, which is the end of the stack trace
  have hall : ∀ (frames : List Frame) (r : Recording), r.Good vm →
      (∀ frame ∈ frames, vm.Frame frame) → (frames.foldl (Recording.enter info) r).Good vm ∧
        r.rows.map MethodRow.method ⊆
          (frames.foldl (Recording.enter info) r).rows.map MethodRow.method ∧
        ∀ frame ∈ frames,
          frame.method ∈ (frames.foldl (Recording.enter info) r).rows.map MethodRow.method := by
    intro frames
    induction frames with
    | nil => exact fun r h _ => ⟨h, fun m hm => hm, nofun⟩
    | cons frame frames ih =>
        intro r h hframes
        obtain ⟨hframe, hframes⟩ := List.forall_mem_cons.mp hframes
        obtain ⟨hgood, hsub, hmem⟩ := ih (r.enter info frame) (h.enter hinfo hframe) hframes
        obtain ⟨hkept, hnew⟩ := mem_rows_enter info r frame
        exact ⟨hgood, fun m hm => hsub (hkept hm), List.forall_mem_cons.mpr ⟨hsub hnew, hmem⟩⟩
  obtain ⟨hgood, -, hmem⟩ := hall frames.reverse r h fun frame hframe =>
    hframes frame (List.mem_reverse.mp hframe)
  exact ⟨hgood, fun frame hframe => hmem frame (List.mem_reverse.mpr hframe)⟩

end Enter

/-! ### Threads

A thread may be started and ended several times; a recording begins with each start. -/

/-- A thread whose recording is good; `bytes` is how much has been allocated. -/
structure RecordedThread.Good (vm : VmMethods) (bytes : Nat) (t : RecordedThread) : Prop where
  counter : ∀ object, t.counter object ≤ bytes
  live : ∀ r, t.live = some r → r.Good vm ∧ OnRows r.rows t.stack

namespace RecordedThread

variable {vm : VmMethods} {bytes : Nat} {t : RecordedThread}

/-- More bytes may have been allocated. -/
theorem Good.mono {bytes' : Nat} (h : t.Good vm bytes) (hle : bytes ≤ bytes') :
    t.Good vm bytes' := ⟨fun object => (h.counter object).trans hle, h.live⟩

/-- A thread that has not been started is good. -/
theorem good_start : start.Good vm 0 := ⟨fun _ => Nat.le_refl _, nofun⟩

/-- A thread that has just been started. -/
theorem good_started : started.Good vm bytes := by
  refine ⟨fun _ => Nat.zero_le _, fun r hr => ?_⟩
  cases hr
  exact ⟨Recording.good_empty vm, nofun⟩

/-- A thread stays good when a method is entered. -/
theorem Good.methodEntry {info : List Char} {stackTrace : Option (List Frame)}
    (h : t.Good vm bytes) (hinfo : CleanInfo info)
    (hframes : ∀ frames, stackTrace = some frames → ∀ frame ∈ frames, vm.Frame frame) :
    (t.methodEntry info stackTrace).Good vm bytes := by
  unfold RecordedThread.methodEntry
  split
  · rename_i r frames hlive
    obtain ⟨hgood, hmem⟩ := (h.live r hlive).1.enterAll hinfo (hframes frames rfl)
    refine ⟨h.counter, fun r' hr' => ?_⟩
    cases hr'
    refine ⟨hgood, fun frame hframe => ?_⟩
    obtain ⟨⟨source, i⟩, hsource, rfl⟩ := List.mem_map.mp hframe
    have hmem' : source ∈ frames := List.fst_mem_of_mem_zipIdx (List.mem_reverse.mp hsource)
    exact ⟨hmem source hmem', (hframes frames rfl source hmem').entryScope i⟩
  · exact ⟨h.counter, fun r hr => ⟨(h.live r hr).1, nofun⟩⟩

/-- A thread stays good when an object is counted. -/
theorem Good.count {args : AllocArgs} (h : t.Good vm bytes) (hsize : 0 < args.size) :
    (t.count args.object).Good vm (bytes + args.size) := by
  refine ⟨fun object => ?_, h.live⟩
  have hold := h.counter object
  by_cases hsame : object = args.object
  · subst hsame
    have hmod := Nat.mod_le (t.counter args.object + 1) (2 ^ 64)
    show Function.update t.counter args.object _ args.object ≤ _
    rw [Function.update_self, add64]
    omega
  · show Function.update t.counter args.object _ object ≤ _
    rw [Function.update_of_ne hsame]
    omega

/-- A thread stays good when an allocation is recorded. -/
theorem Good.alloc {args : AllocArgs} (h : t.Good vm bytes) (hargs : vm.Alloc args)
    (hbytes : bytes < 2 ^ 31) : (t.alloc args).Good vm bytes := by
  unfold RecordedThread.alloc
  split
  · rename_i r frames hlive hframes
    obtain ⟨hgood, hstack⟩ := h.live r hlive
    refine ⟨h.counter, fun r' hr' => ?_⟩
    cases hr'
    refine ⟨⟨hgood.rows, hgood.nodup, hgood.samples, ?_⟩, hstack⟩
    refine List.forall_mem_append.mpr ⟨hgood.allocs, fun a ha => ?_⟩
    rw [List.mem_singleton.mp ha]
    refine ⟨fun frame hframe => ?_, Nat.lt_of_le_of_lt (h.counter _) hbytes⟩
    obtain ⟨source, hsource, rfl⟩ := List.mem_map.mp hframe
    have hmem : source ∈ frames := List.mem_reverse.mp (List.mem_of_mem_filter hsource)
    have hvm := hargs.frames frames hframes source hmem
    exact ⟨hvm.method, hvm.allocScope⟩
  · exact h

/-- Samples are taken with the call path of the last entry. -/
theorem Good.sample {usage : Nat} (h : t.Good vm bytes) (husage : usage < 2 ^ 31) (taken : Nat) :
    (t.sample usage taken).Good vm bytes := by
  refine ⟨h.counter, fun r' hr' => ?_⟩
  obtain ⟨r, hlive, rfl⟩ := Option.map_eq_some_iff.mp hr'
  obtain ⟨hgood, hstack⟩ := h.live r hlive
  refine ⟨⟨hgood.rows, hgood.nodup, ?_, hgood.allocs⟩, hstack⟩
  refine List.forall_mem_append.mpr ⟨hgood.samples, fun s hs => ?_⟩
  rw [List.eq_of_mem_replicate hs]
  exact ⟨hstack, husage⟩

/-- The sites that a thread adds are words. -/
theorem sites_oneWord {args : AllocArgs} (hargs : vm.Alloc args) (t : RecordedThread) :
    ∀ site ∈ t.sites args, OneWord site.1 := by
  have hjava : OneWord ".java".toList := by decide
  unfold sites
  split
  · exact allocSites_name (fun name hname => hname.append hjava) args _
      (oneWord_className hargs.signature)
  · exact fun site hsite => nomatch hsite

end RecordedThread

/-! ### Runs

The step lemma `Recorder.Good.next` has a case for each event, and `Reaches.good` is the
induction. -/

/-- A recorder whose recordings are good. -/
structure Recorder.Good (vm : VmMethods) (bytes : Nat) (r : Recorder) : Prop where
  threads : ∀ tid, (r.threads tid).Good vm bytes
  usage : r.globals.activeMemoryUsage ≤ bytes
  info : CleanInfo r.globals.objectInfo
  ended : ∀ e ∈ r.ended, ∀ recording, e.2 = some recording → recording.Good vm

namespace Recorder

variable {vm : VmMethods} {bytes : Nat} {r : Recorder}

/-- The recorder is good before the first event. -/
theorem good_start : start.Good vm 0 :=
  ⟨fun _ => RecordedThread.good_start, Nat.le_refl _, cleanInfo_nil, nofun⟩

/-- A thread changes to one that is good. -/
theorem Good.set {t : RecordedThread} (h : r.Good vm bytes) (tid : Nat) (ht : t.Good vm bytes) :
    (r.set tid t).Good vm bytes := by
  refine ⟨fun tid' => ?_, h.usage, h.info, h.ended⟩
  by_cases hsame : tid' = tid
  · subst hsame
    simpa [Recorder.set] using ht
  · simpa [Recorder.set, Function.update_of_ne hsame] using h.threads tid'

/-- More bytes may have been allocated. -/
theorem Good.mono {bytes' : Nat} (h : r.Good vm bytes) (hle : bytes ≤ bytes') :
    r.Good vm bytes' :=
  ⟨fun tid => (h.threads tid).mono hle, h.usage.trans hle, h.info, h.ended⟩

/-- The first part of an allocation keeps the recorder good. -/
theorem Good.allocEnter {tid : Nat} {args : AllocArgs} (h : r.Good vm bytes)
    (hargs : vm.Alloc args) : (r.allocEnter tid args).Good vm (bytes + args.size) := by
  have hset := (h.mono (Nat.le_add_right bytes args.size)).set tid
    ((h.threads tid).count hargs.size)
  refine ⟨hset.threads, ?_, h.info, h.ended⟩
  have husage := h.usage
  have hmod := Nat.mod_le (r.globals.activeMemoryUsage + args.size) (2 ^ 64)
  show add64 r.globals.activeMemoryUsage args.size ≤ bytes + args.size
  rw [add64]
  omega

/-- The second part of an allocation keeps it good, whatever came between. -/
theorem Good.allocLeave {tid : Nat} {args : AllocArgs} (h : r.Good vm bytes)
    (hargs : vm.Alloc args) (hbytes : bytes < 2 ^ 31) : (r.allocLeave tid args).Good vm bytes := by
  have hset := h.set tid ((h.threads tid).alloc hargs hbytes)
  refine ⟨hset.threads, ?_, ?_, h.ended⟩
  · show (((r.threads tid).sites args).foldl (addSite args) r.globals).activeMemoryUsage ≤ bytes
    rw [foldl_addSite_usage]
    exact h.usage
  · exact h.info.foldl_addSite (RecordedThread.sites_oneWord hargs (r.threads tid))

/-- The step lemma: an event that the VM causes keeps the recorder good. -/
theorem Good.next {event : AgentEvent} (h : r.Good vm bytes) (hevent : vm.Event event)
    (hbytes : bytes + event.allocated < 2 ^ 31) (taken : Nat) :
    (r.next taken event).Good vm (bytes + event.allocated) := by
  cases event with
  | call tid callback =>
      cases callback with
      | threadStart answers => exact h.set tid RecordedThread.good_started
      | threadEnd =>
          have ht := h.threads tid
          have hset := h.set tid (t := { r.threads tid with live := none })
            ⟨ht.counter, nofun⟩
          refine ⟨hset.threads, h.usage, h.info, ?_⟩
          refine List.forall_mem_append.mpr ⟨h.ended, fun e he => ?_⟩
          rw [List.mem_singleton.mp he]
          exact fun recording hlive => (ht.live recording hlive).1
      | methodEntry stackTrace => exact h.set tid ((h.threads tid).methodEntry h.info hevent)
      | objectAlloc args => exact (h.allocEnter hevent).allocLeave hevent hbytes
      | vmDeath | gcStart | gcEnd | classLoad | classPrepare => exact h
  | objectAllocEnter tid args => exact h.allocEnter hevent
  | objectAllocLeave tid args => exact h.allocLeave hevent hbytes
  | objectFree traversal tag =>
      -- no object has a tag
      exact absurd hevent id
  | signal tid fuel siginfo =>
      exact h.set tid ((h.threads tid).sample (Nat.lt_of_le_of_lt h.usage hbytes) taken)
  | kernel tid k => exact h

/-- In a run that allocates less than 2 GiB all recordings are good. -/
theorem Reaches.good {events : List AgentEvent} {taken : List Nat} (h : Reaches events taken r)
    (hevents : ∀ event ∈ events, vm.Event event)
    (hbytes : (events.map AgentEvent.allocated).sum < 2 ^ 31) :
    r.Good vm (events.map AgentEvent.allocated).sum := by
  have hall : ∀ {r₀ r : Recorder} {events : List AgentEvent} {taken : List Nat},
      Run.SpecRun (fun r event n r' => r' = r.next n event) r₀ events taken r →
      ∀ bytes, r₀.Good vm bytes → (∀ event ∈ events, vm.Event event) →
      bytes + (events.map AgentEvent.allocated).sum < 2 ^ 31 →
      r.Good vm (bytes + (events.map AgentEvent.allocated).sum) := by
    intro r₀ r events taken hrun
    induction hrun with
    | nil r => exact fun bytes h _ _ => h
    | cons hstep _ ih =>
        intro bytes h hevents hbytes
        obtain ⟨hevent, hevents⟩ := List.forall_mem_cons.mp hevents
        rw [List.map_cons, List.sum_cons, ← Nat.add_assoc] at hbytes ⊢
        subst hstep
        exact ih _ (h.next hevent (by omega) _) hevents hbytes
  have hrun := hall h 0 good_start hevents (by omega)
  rwa [Nat.zero_add] at hrun

end Recorder

end DroidPerf
