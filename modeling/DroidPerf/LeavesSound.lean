import DroidPerf.SectionsSound

/-!
# DroidPerf.LeavesSound

When the leaves of the access profile keep their objects.

Whatever the order of the lines in the trace files, each sample should show the full entry of
its leaf. The line that writes the context of a leaf is one of the first thread that has a line
through it, and any of these can come first; so they must all show it as the line of the sample
does (`leavesKept_iff`).

For one order of the lines, a sample shows what the first line through its leaf shows
(`leaves_decode_iff`); that is the decoding of the profile. Over all orders, the first thread
stays the first (`Permuted.find?`), and each of its lines can come first
(`exists_permuted_first`). When two lines show a leaf alike is a matter of the method map and
of whether both end there (`frameShown_eq_iff`).
-/

namespace DroidPerf

open Text

open DataBuilder

/-- What the section computes for the leaf of a line: the entry of the method map in full,
and the metric. -/
def TraceLine.leaf (line : TraceLine) : Option (Shown × List MetricMsg) := do
  let frame ← line.trace.t.getLast?
  let mid ← readInt frame.1
  let lineNo ← readInt frame.2
  let info ← line.methodMap mid
  return ((info.filePath, info.name, lineNo), [⟨0, line.trace.m, []⟩])

/-- The same threads, with the lines of their trace files in another order. -/
def Permuted (threads threads' : List ThreadFiles) : Prop :=
  List.Forall₂ (fun files files' => files.method = files'.method ∧ files.trace.Perm files'.trace)
    threads threads'

/-- Whatever the order of the lines, the leaf of each sample decodes to what was computed for
its line, so that the leaves and metrics are the same ones in every order. -/
def LeavesKept (hash : List Char → Int) (threads : List ThreadFiles) (contexts : List Context) :
    Prop :=
  ∀ threads', Permuted threads threads' → ∃ p, accessProfile hash threads' contexts = some p ∧
    p.sample.mapM p.decodeLeaf = some ((sectionLines threads').filterMap TraceLine.leaf) ∧
    ((sectionLines threads').filterMap TraceLine.leaf).Perm
      ((sectionLines threads).filterMap TraceLine.leaf)

/-- The entry of the method map for a frame of a line. -/
def TraceLine.info (line : TraceLine) (i : Nat) : Option MethodInfo := do
  let frame ← line.trace.t[i]?
  let mid ← readInt frame.1
  line.methodMap mid

/-- An entry without what stands before the last bracket. -/
def MethodInfo.cut (info : MethodInfo) : MethodInfo :=
  ⟨afterLast ']' info.name, afterLast ']' info.filePath⟩

/-- A line that goes through the leaf of another one shows that leaf as the other one does:
in full if it ends there as well, and cut if it goes on. -/
def ShowsAlike (line line' : TraceLine) : Prop :=
  let i := line.trace.t.length - 1
  if line'.trace.t = line.trace.t then line'.info i = line.info i
  else (line'.info i).map MethodInfo.cut = line.info i

instance (line line' : TraceLine) : Decidable (ShowsAlike line line') :=
  inferInstanceAs (Decidable (if line'.trace.t = line.trace.t then _ else _))

/-- All lines through a leaf in the first thread that has one show the leaf alike. -/
def LeavesAlike (threads : List ThreadFiles) : Prop :=
  ∀ line ∈ sectionLines threads, ∀ files ∈ threads.find? fun files =>
    files.lines.any fun line' => line.trace.t <+: line'.trace.t,
    ∀ line' ∈ files.lines, line.trace.t <+: line'.trace.t → ShowsAlike line line'

instance (threads : List ThreadFiles) : Decidable (LeavesAlike threads) :=
  inferInstanceAs (Decidable (∀ line ∈ sectionLines threads, ∀ files ∈ threads.find? fun files =>
    files.lines.any fun line' => line.trace.t <+: line'.trace.t,
    ∀ line' ∈ files.lines, line.trace.t <+: line'.trace.t → ShowsAlike line line'))

/-! ### What two lines show

A leaf is shown in full by a line that ends at it, and cut by a line that goes on. -/

/-- The leaf of a line is what the line shows for its last frame. -/
theorem TraceLine.leaf_eq (line : TraceLine) : line.leaf =
    (frameShown true line.methodMap line.trace.t (line.trace.t.length - 1)).map fun s =>
      (s, [⟨0, line.trace.m, []⟩]) := by
  unfold TraceLine.leaf frameShown
  rw [List.getLast?_eq_getElem?]
  cases line.trace.t[line.trace.t.length - 1]? with
  | none => rfl
  | some frame =>
      simp only [Option.bind_eq_bind, Option.bind_some]
      cases readInt frame.1 with
      | none => rfl
      | some mid =>
          cases readInt frame.2 with
          | none => rfl
          | some lineNo =>
              cases hinfo : line.methodMap mid with
              | none => simp [hinfo]
              | some info => simp [hinfo]

/-- Entries are equal if they show the same. -/
theorem MethodInfo.eq_iff {a b : MethodInfo} :
    a = b ↔ a.filePath = b.filePath ∧ a.name = b.name := by
  cases a
  cases b
  simp [and_comm]

/-- Showing alike is showing the same. -/
theorem frameShown_eq_iff {line line' : TraceLine} (hline : line.Ok) (hne : line.trace.t ≠ [])
    (hthrough : line.trace.t <+: line'.trace.t) :
    frameShown true line'.methodMap line'.trace.t (line.trace.t.length - 1) =
        frameShown true line.methodMap line.trace.t (line.trace.t.length - 1) ↔
      ShowsAlike line line' := by
  have hpos := List.length_pos_of_ne_nil hne
  have hi : line.trace.t.length - 1 < line.trace.t.length := by omega
  have hframe := List.getElem?_eq_getElem hi
  have hframe' := Intern.getElem?_of_isPrefix hthrough hframe
  obtain ⟨mid, lineNo, info, hmid, hlineNo, hinfo, -⟩ := hline.known _ (List.getElem_mem hi)
  -- the other line ends here exactly if its call path is the same
  have hend : line.trace.t.length - 1 = line'.trace.t.length - 1 ↔ line'.trace.t = line.trace.t := by
    constructor
    · intro hlen
      have hle := hthrough.length_le
      exact (hthrough.eq_of_length (by omega)).symm
    · intro heq
      rw [heq]
  unfold ShowsAlike
  simp only [frameShown, TraceLine.info, hframe, hframe', hmid, hlineNo, hinfo, hend,
    Option.bind_eq_bind, Option.bind_some, Option.pure_def, true_and, if_true]
  cases hinfo' : line'.methodMap mid with
  | none => simp
  | some info' =>
      by_cases hsame : line'.trace.t = line.trace.t
      · simp [hsame, MethodInfo.eq_iff]
      · simp [hsame, MethodInfo.eq_iff, MethodInfo.cut]

/-! ### The first thread with a line through a call path

Only the lines within a file change their order, so the threads stay as they are. -/

section Threads

variable {through : TraceLine → Bool} {threads threads' : List ThreadFiles}

/-- The first line is one of the first thread. -/
theorem find?_sectionLines {line : TraceLine}
    (h : (sectionLines threads).find? through = some line) :
    ∃ files, threads.find? (fun files => files.lines.any through) = some files ∧
      line ∈ files.lines ∧ through line = true := by
  induction threads with
  | nil => cases h
  | cons files threads ih =>
      rw [sectionLines, List.flatMap_cons, List.find?_append] at h
      cases hfirst : files.lines.find? through with
      | some line' =>
          rw [hfirst, Option.some_or] at h
          cases h
          have hmem := List.mem_of_find?_eq_some hfirst
          have hthrough := List.find?_some hfirst
          refine ⟨files, ?_, hmem, hthrough⟩
          rw [List.find?_cons_of_pos]
          exact List.any_eq_true.mpr ⟨line, hmem, hthrough⟩
      | none =>
          rw [hfirst, Option.none_or] at h
          obtain ⟨files', hfind, hmem⟩ := ih h
          refine ⟨files', ?_, hmem⟩
          rw [List.find?_cons_of_neg, hfind]
          simpa using List.find?_eq_none.mp hfirst

/-- The lines of a thread in the other order. -/
theorem lines_perm {files files' : ThreadFiles} (hmethod : files.method = files'.method)
    (htrace : files.trace.Perm files'.trace) : files.lines.Perm files'.lines := by
  unfold ThreadFiles.lines ThreadFiles.methodMap
  rw [hmethod]
  cases files'.method.foldlM addMethod builtinMethods with
  | none => exact .refl _
  | some methodMap => simpa using (htrace.filterMap traceOf).map (TraceLine.mk methodMap)

/-- The lines of all threads are permuted with the threads. -/
theorem Permuted.sectionLines (h : Permuted threads threads') :
    (sectionLines threads).Perm (sectionLines threads') := by
  unfold DroidPerf.sectionLines
  induction h with
  | nil => exact .refl _
  | cons hfiles _ ih =>
      rw [List.flatMap_cons, List.flatMap_cons]
      exact (lines_perm hfiles.1 hfiles.2).append ih

/-- The first thread stays the first. -/
theorem Permuted.find? (h : Permuted threads threads') {files' : ThreadFiles}
    (hfind : threads'.find? (fun files => files.lines.any through) = some files') :
    ∃ files, threads.find? (fun files => files.lines.any through) = some files ∧
      files.lines.Perm files'.lines := by
  induction h with
  | nil => cases hfind
  | @cons files files₁ threads threads' hfiles _ ih =>
      have hperm := lines_perm hfiles.1 hfiles.2
      have hany : files.lines.any through = files₁.lines.any through := by
        rw [Bool.eq_iff_iff, List.any_eq_true, List.any_eq_true]
        simp only [hperm.mem_iff]
      rw [List.find?_cons] at hfind ⊢
      rw [hany]
      split at hfind
      · cases hfind
        exact ⟨files, rfl, hperm⟩
      · exact ih hfind

/-- The order that is there is one of the permuted ones. -/
theorem Permuted.refl (threads : List ThreadFiles) : Permuted threads threads :=
  List.forall₂_same.mpr fun _ _ => ⟨rfl, .refl _⟩

/-- Any line of the first thread can be the first. -/
theorem exists_permuted_first {files : ThreadFiles} {line : TraceLine}
    (hfind : threads.find? (fun files => files.lines.any through) = some files)
    (hline : line ∈ files.lines) (hthrough : through line = true) :
    ∃ threads', Permuted threads threads' ∧
      (DroidPerf.sectionLines threads').find? through = some line := by
  obtain ⟨-, before, after, rfl, hbefore⟩ := List.find?_eq_some_iff_append.mp hfind
  obtain ⟨methodMap, hmap, trace, ⟨text, htext, htrace⟩, rfl⟩ : ∃ methodMap,
      files.methodMap = some methodMap ∧ ∃ trace, (∃ text ∈ files.trace, traceOf text = some trace) ∧
        TraceLine.mk methodMap trace = line := by simpa [ThreadFiles.lines] using hline
  -- the line of the file that it was read from is put first
  let files' : ThreadFiles := ⟨files.method, text :: files.trace.erase text⟩
  refine ⟨before ++ files' :: after, ?_, ?_⟩
  · refine List.rel_append (Permuted.refl before) (.cons ⟨rfl, ?_⟩ (Permuted.refl after))
    exact List.perm_cons_erase htext
  · have hnone : (DroidPerf.sectionLines before).find? through = none := by
      refine List.find?_eq_none.mpr fun line hmem => ?_
      obtain ⟨earlier, hearlier, hmem⟩ := List.mem_flatMap.mp hmem
      have hno := hbefore earlier hearlier
      simp only [Bool.not_eq_true', List.any_eq_false] at hno
      exact hno line hmem
    have hmap' : files'.methodMap = some methodMap := hmap
    have hlines : files'.lines = ⟨methodMap, trace⟩ ::
        ((files.trace.erase text).filterMap traceOf).map (TraceLine.mk methodMap) := by
      simp [ThreadFiles.lines, hmap', files', htrace]
    rw [DroidPerf.sectionLines, List.flatMap_append, List.find?_append, List.flatMap_cons, hlines]
    rw [DroidPerf.sectionLines] at hnone
    simp [hnone, hthrough]

end Threads

/-! ### Leaves that are kept

The conditions on the files are about all orders at once; that the files are accepted does not
depend on the order. -/

/-- What is computed for every element, when every element has it. -/
theorem mapM_eq_filterMap_iff {A B : Type} {f g : A → Option B} {l : List A}
    (hg : ∀ a ∈ l, ∃ b, g a = some b) : l.mapM f = some (l.filterMap g) ↔ ∀ a ∈ l, f a = g a := by
  induction l with
  | nil => simp
  | cons a l ih =>
      rw [List.forall_mem_cons] at hg ⊢
      obtain ⟨b, hb⟩ := hg.1
      rw [← ih hg.2, List.mapM_cons, List.filterMap_cons_some hb, hb]
      cases f a with
      | none => simp
      | some b' =>
          cases l.mapM f with
          | none => simp
          | some bs => simp

/-- A thread in the other order is one of the threads. -/
theorem Permuted.mem {threads threads' : List ThreadFiles} (h : Permuted threads threads')
    {files' : ThreadFiles} (hmem : files' ∈ threads') :
    ∃ files ∈ threads, files.method = files'.method ∧ files.trace.Perm files'.trace := by
  induction h with
  | nil => cases hmem
  | @cons files _ _ _ hfiles _ ih =>
      rcases List.mem_cons.mp hmem with rfl | hmem
      · exact ⟨files, List.mem_cons_self, hfiles⟩
      · obtain ⟨files, hmem, hrel⟩ := ih hmem
        exact ⟨files, List.mem_cons_of_mem _ hmem, hrel⟩

/-- Files are accepted in any order of their lines. -/
theorem Accepted.permuted {threads threads' : List ThreadFiles} {contexts : List Context}
    (h : Accepted threads contexts) (hperm : Permuted threads threads') :
    Accepted threads' contexts := by
  have hlines := hperm.sectionLines
  refine ⟨fun files' hmem => ?_, fun files' hmem line hline => ?_,
    fun line hline => h.lines line (hlines.mem_iff.mpr hline), ?_⟩
  · obtain ⟨files, hfiles, hmethod, -⟩ := hperm.mem hmem
    rw [ThreadFiles.methodMap, ← hmethod]
    exact h.methods files hfiles
  · obtain ⟨files, hfiles, -, htrace⟩ := hperm.mem hmem
    exact h.traces files hfiles line (htrace.mem_iff.mpr hline)
  · rw [← (hlines.map _).sum_nat]
    exact h.size

/-- A line has a frame. -/
theorem trace_ne_nil {threads : List ThreadFiles} {line : TraceLine}
    (h : line ∈ sectionLines threads) : line.trace.t ≠ [] := by
  obtain ⟨files, -, h⟩ := List.mem_flatMap.mp h
  obtain ⟨methodMap, -, trace, ⟨text, -, htext⟩, rfl⟩ : ∃ methodMap,
      files.methodMap = some methodMap ∧ ∃ trace, (∃ text ∈ files.trace, traceOf text = some trace) ∧
        TraceLine.mk methodMap trace = line := by simpa [ThreadFiles.lines] using h
  unfold traceOf at htext
  split at htext
  · exact (readTrace_frames htext).1
  · cases htext

/-- The profile of the lines in one order. -/
theorem leaves_decode_iff {hash : List Char → Int} {threads : List ThreadFiles}
    {contexts : List Context} {T : PathTree TraceFrame} (hT : Represents contexts T)
    (hacc : Accepted threads contexts)
    (hhash : ∀ calls, profileCalls true threads contexts = some calls →
      NoCollision hash (Builder.new.hashedRun hash calls)) :
    (∃ p, accessProfile hash threads contexts = some p ∧
        p.sample.mapM p.decodeLeaf = some ((sectionLines threads).filterMap TraceLine.leaf)) ↔
      ∀ line ∈ sectionLines threads, firstShown true (sectionLines threads) line.trace.t =
        frameShown true line.methodMap line.trace.t (line.trace.t.length - 1) := by
  obtain ⟨p, hp, hleaves⟩ := accessProfile_leaves hT hacc hhash
  have hleaf : ∀ line ∈ sectionLines threads, ∃ e, line.leaf = some e := by
    intro line hline
    have hpos := List.length_pos_of_ne_nil (trace_ne_nil hline)
    obtain ⟨s, hs, -⟩ := (hacc.lines line hline).frameShown true
      (show line.trace.t.length - 1 < line.trace.t.length by omega)
    rw [TraceLine.leaf_eq, hs]
    exact ⟨_, rfl⟩
  have hiff : (∃ p, accessProfile hash threads contexts = some p ∧
      p.sample.mapM p.decodeLeaf = some ((sectionLines threads).filterMap TraceLine.leaf)) ↔
      p.sample.mapM p.decodeLeaf = some ((sectionLines threads).filterMap TraceLine.leaf) := by
    simp [hp]
  rw [hiff, hleaves, mapM_eq_filterMap_iff hleaf]
  refine forall₂_congr fun line _ => ?_
  rw [TraceLine.leaf_eq]
  exact (Option.map_injective fun _ _ h => (Prod.mk.inj h).1).eq_iff

/-- **Leaves keep their objects.** Leaves are kept exactly when all lines of the first thread
through a leaf show it alike. -/
theorem leavesKept_iff (hash : List Char → Int) (threads : List ThreadFiles)
    (contexts : List Context) (hcontexts : BuiltContexts contexts)
    (hacc : Accepted threads contexts)
    (hhash : ∀ threads' calls, Permuted threads threads' →
      profileCalls true threads' contexts = some calls →
      NoCollision hash (Builder.new.hashedRun hash calls)) :
    LeavesKept hash threads contexts ↔ LeavesAlike threads := by
  obtain ⟨T, hT⟩ := hcontexts.represents
  have hdecode := fun threads' hperm => leaves_decode_iff hT (hacc.permuted hperm)
    fun calls => hhash threads' calls hperm
  constructor
  · intro hkept line hline files hfind line' hline' hthrough
    -- the other line is put first, and so it is what the sample shows
    obtain ⟨threads', hperm, hfirst⟩ :=
      exists_permuted_first hfind hline' (decide_eq_true hthrough)
    obtain ⟨p, hp, hleaves, -⟩ := hkept threads' hperm
    have hshown := (hdecode threads' hperm).mp ⟨p, hp, hleaves⟩ line
      (hperm.sectionLines.mem_iff.mp hline)
    rw [firstShown, hfirst] at hshown
    exact (frameShown_eq_iff (hacc.lines line hline) (trace_ne_nil hline) hthrough).mp hshown
  · intro halike threads' hperm
    have hmem := hperm.sectionLines
    obtain ⟨p, hp, hleaves⟩ := (hdecode threads' hperm).mpr fun line hline' => by
      have hline := hmem.mem_iff.mpr hline'
      obtain ⟨first, hfirst⟩ : ∃ first, (sectionLines threads').find?
          (fun l => line.trace.t <+: l.trace.t) = some first :=
        Option.isSome_iff_exists.mp (List.find?_isSome.mpr ⟨line, hline', by simp⟩)
      obtain ⟨files', hfind', hfirst', hthrough⟩ := find?_sectionLines hfirst
      obtain ⟨files, hfind, hfiles⟩ := hperm.find? hfind'
      have hshows := halike line hline files hfind first (hfiles.mem_iff.mpr hfirst')
        (of_decide_eq_true hthrough)
      rw [firstShown, hfirst]
      exact (frameShown_eq_iff (hacc.lines line hline) (trace_ne_nil hline)
        (of_decide_eq_true hthrough)).mpr hshows
    exact ⟨p, hp, hleaves, (hmem.filterMap _).symm⟩

/-- The first line goes on from the leaf of the second. -/
theorem leavesKept_fails_object :
    ¬ LeavesKept (fun s => s.foldl (fun n c => n * 256 + c.toNat) 1)
      [⟨["16 f [x]a.B.java\n".toList, "32 g a.C.java\n".toList],
        ["0:16 0:32 |5\n".toList, "0:16 |6\n".toList]⟩] rootContexts := by
  intro hkept
  obtain ⟨p, hp, hleaves, -⟩ := hkept _ (Permuted.refl _)
  have hdecode := congrArg (fun o => o.bind fun p => p.sample.mapM p.decodeLeaf) hp
  rw [Option.bind_some, hleaves] at hdecode
  revert hdecode
  decide +kernel

/-- Two threads, of which the second ends where the first goes on. -/
def nestedThreads : List ThreadFiles := [
  ⟨["16 f a.B.java\n".toList, "32 g [x]a.C.java\n".toList], ["0:16 0:32 |5\n".toList]⟩,
  ⟨["16 f a.B.java\n".toList], ["0:16 |6\n".toList]⟩]

/-- With one line each there is no other order. -/
theorem permuted_nestedThreads {threads : List ThreadFiles} (h : Permuted nestedThreads threads) :
    threads = nestedThreads := by
  unfold nestedThreads at h
  cases h with
  | cons hfirst hrest =>
      cases hrest with
      | cons hsecond hrest =>
          cases hrest
          rename_i first second
          obtain ⟨hmethod, htrace⟩ := hfirst
          obtain ⟨hmethod', htrace'⟩ := hsecond
          cases first
          cases second
          simp only [List.singleton_perm] at htrace htrace'
          subst htrace htrace' hmethod hmethod'
          rfl

theorem accepted_nestedThreads : Accepted nestedThreads rootContexts where
  methods files hfiles := Option.isSome_iff_exists.mp ((show ∀ files ∈ nestedThreads,
    files.methodMap.isSome = true by decide +kernel) files hfiles)
  traces files hfiles line hline _ := Option.isSome_iff_exists.mp ((show ∀ files ∈ nestedThreads,
    ∀ line ∈ files.trace, (readTrace line).isSome = true by decide +kernel) files hfiles line hline)
  lines line hline := by
    have hall : ∀ line ∈ sectionLines nestedThreads, (∀ frame ∈ line.trace.t,
        ((readInt frame.1).bind line.methodMap).isSome = true ∧
          ((readInt frame.2).any fitsInt64) = true) ∧ fitsUint64 line.trace.m = true := by
      decide +kernel
    obtain ⟨hframes, hmetric⟩ := hall line hline
    refine ⟨fun frame hframe => ?_, hmetric⟩
    obtain ⟨hmethod, hlineNo⟩ := hframes frame hframe
    obtain ⟨info, hinfo⟩ := Option.isSome_iff_exists.mp hmethod
    obtain ⟨mid, hmid, hinfo⟩ := Option.bind_eq_some_iff.mp hinfo
    obtain ⟨lineNo, hlineNo, hfits⟩ := (Option.any_eq_true _ _).mp hlineNo
    exact ⟨mid, lineNo, info, hmid, hlineNo, hinfo, hfits⟩
  size := by decide +kernel

theorem leavesKept_iff_nestedThreads :
    LeavesKept (fun s => s.foldl (fun n c => n * 256 + c.toNat) 1) nestedThreads rootContexts := by
  have hhash : ∀ calls ∈ profileCalls true nestedThreads rootContexts,
      NoCollision (fun s => s.foldl (fun n c => n * 256 + c.toNat) 1)
        (Builder.new.hashedRun (fun s => s.foldl (fun n c => n * 256 + c.toNat) 1) calls) := by
    decide +kernel
  refine (leavesKept_iff _ nestedThreads rootContexts .root accepted_nestedThreads
    fun threads calls hperm hcalls => ?_).mpr (by decide +kernel)
  rw [permuted_nestedThreads hperm] at hcalls
  exact hhash calls hcalls

end DroidPerf
