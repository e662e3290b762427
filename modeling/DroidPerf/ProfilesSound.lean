import DroidPerf.ConversionFilesSound
import DroidPerf.LeavesSound

/-!
# DroidPerf.ProfilesSound

From the files of the threads to the profiles.

For every directory that the agent can leave with the ids of its threads told apart, and every
order in which it is listed, each profile has one sample for each line of the files of its
kind, with the metric of the line (`convert_shows`). When the threads name methods alike, the
call path of a sample is that of its line (`convert_exact`), except that the profile of the
accesses may show a frame with the object prefix that another line put there.

The order of the directory decides in which order a section reads its files, and with it which
line is the first through a context. `convert_shows` therefore speaks of some order of the
files of each kind. Lines that agree about their methods show the same whichever is first
(`firstShown_agree`), so the order matters no more, and `convert_exact` compares the samples as
they are in any order.
-/

namespace DroidPerf

open Text

open DataBuilder

/-! ### Lines that name methods alike

The object prefix is the part of a name that may differ between lines. Without it, a frame is
shown by the entry of its method alone. -/

/-- A frame that is shown without what stands before the last bracket. -/
def cutShown (s : Shown) : Shown := (afterLast ']' s.1, afterLast ']' s.2.1, s.2.2)

/-- Lines with a frame in common mean the same method by it. -/
def Agree (lines : List TraceLine) : Prop :=
  ∀ line ∈ lines, ∀ line' ∈ lines, ∀ frame ∈ line.trace.t, frame ∈ line'.trace.t →
    ((readInt frame.1).bind line.methodMap).map MethodInfo.cut =
      ((readInt frame.1).bind line'.methodMap).map MethodInfo.cut

instance (lines : List TraceLine) : Decidable (Agree lines) :=
  inferInstanceAs (Decidable (∀ line ∈ lines, ∀ line' ∈ lines, ∀ frame ∈ line.trace.t,
    frame ∈ line'.trace.t → ((readInt frame.1).bind line.methodMap).map MethodInfo.cut =
      ((readInt frame.1).bind line'.methodMap).map MethodInfo.cut))

/-- The call path that a line gives. -/
def TraceLine.path (line : TraceLine) : Option (List Shown) :=
  (List.range line.trace.t.length).mapM (frameShown false line.methodMap line.trace.t)

/-- The call path and the metric that a line gives. -/
def TraceLine.sample (line : TraceLine) : Option (List Shown × List MetricMsg) := do
  let path ← line.path
  return (path, [⟨0, line.trace.m, []⟩])

/-- Nothing is left of the character that is cut at. -/
theorem notMem_afterLast (c : Char) (s : List Char) : c ∉ afterLast c s := by
  unfold afterLast
  rw [List.mem_reverse]
  intro hmem
  have hne := List.mem_takeWhile_imp hmem
  simp at hne

/-- Cutting a second time changes nothing. -/
theorem afterLast_afterLast (c : Char) (s : List Char) :
    afterLast c (afterLast c s) = afterLast c s := afterLast_of_notMem (notMem_afterLast c s)

/-- Without the prefixes only the cut entry of the method map counts. -/
theorem frameShown_false (methodMap : Int → Option MethodInfo) (t : List TraceFrame) (i : Nat) :
    frameShown false methodMap t i = t[i]?.bind fun frame => (readInt frame.2).bind fun lineNo =>
      (((readInt frame.1).bind methodMap).map MethodInfo.cut).map fun info =>
        (info.filePath, info.name, lineNo) := by
  unfold frameShown
  cases t[i]? with
  | none => rfl
  | some frame =>
      cases hmid : readInt frame.1 with
      | none => cases readInt frame.2 <;> simp [hmid]
      | some mid =>
          cases hlineNo : readInt frame.2 with
          | none => simp [hmid, hlineNo]
          | some lineNo =>
              cases hinfo : methodMap mid <;> simp [hmid, hlineNo, hinfo, MethodInfo.cut]

/-- A frame that is shown with its prefix and cut afterwards. -/
theorem map_cutShown_frameShown (leafInFull : Bool) (methodMap : Int → Option MethodInfo)
    (t : List TraceFrame) (i : Nat) : (frameShown leafInFull methodMap t i).map cutShown =
      frameShown false methodMap t i := by
  rw [frameShown_false, frameShown]
  cases t[i]? with
  | none => rfl
  | some frame =>
      cases hmid : readInt frame.1 with
      | none => cases readInt frame.2 <;> simp [hmid]
      | some mid =>
          cases hlineNo : readInt frame.2 with
          | none => simp [hmid, hlineNo]
          | some lineNo =>
              cases hinfo : methodMap mid with
              | none => simp [hmid, hlineNo, hinfo]
              | some info =>
                  -- only a leaf that is shown in full has more than the cut entry
                  by_cases hfull : leafInFull = true ∧ i = t.length - 1
                  · simp [hmid, hlineNo, hinfo, hfull, cutShown, MethodInfo.cut]
                  · simp [hmid, hlineNo, hinfo, hfull, cutShown, MethodInfo.cut,
                      afterLast_afterLast]

section Agree

variable {lines : List TraceLine} {line : TraceLine} {path : List TraceFrame}

/-- The first line through a call path shows what any other one does. -/
theorem firstShown_agree (leafInFull : Bool) (hagree : Agree lines) (hline : line ∈ lines)
    {i : Nat} (hi : i < line.trace.t.length) :
    (firstShown leafInFull lines (line.trace.t.take (i + 1))).map cutShown =
      frameShown false line.methodMap line.trace.t i := by
  have hlen : (line.trace.t.take (i + 1)).length = i + 1 := by
    rw [List.length_take]
    omega
  obtain ⟨first, hfirst⟩ : ∃ first,
      lines.find? (fun l => line.trace.t.take (i + 1) <+: l.trace.t) = some first :=
    Option.isSome_iff_exists.mp (List.find?_isSome.mpr ⟨line, hline, by
      simpa using List.take_prefix _ _⟩)
  have hthrough : line.trace.t.take (i + 1) <+: first.trace.t := by
    simpa using List.find?_some hfirst
  have hframe : line.trace.t[i]? = some line.trace.t[i] := List.getElem?_eq_getElem hi
  have hsame : first.trace.t[i]? = some line.trace.t[i] := by
    refine Intern.getElem?_of_isPrefix hthrough ?_
    rw [List.getElem?_take_of_lt (Nat.lt_succ_self i), hframe]
  -- the first line through the path has the same frame there
  have hmap := hagree first (List.mem_of_find?_eq_some hfirst) line hline line.trace.t[i]
    (List.mem_of_getElem? hsame) (List.getElem_mem hi)
  rw [firstShown, hfirst, hlen]
  simp only [Option.bind_eq_bind, Option.bind_some, Nat.add_sub_cancel]
  rw [map_cutShown_frameShown, frameShown_false, frameShown_false, hframe, hsame,
    Option.bind_some, Option.bind_some, hmap]

/-- A section that cuts all frames shows them cut. -/
theorem map_cutShown_firstShown (lines : List TraceLine) (path : List TraceFrame) :
    (firstShown false lines path).map cutShown = firstShown false lines path := by
  unfold firstShown
  cases lines.find? fun line => path <+: line.trace.t with
  | none => rfl
  | some first => exact map_cutShown_frameShown false first.methodMap first.trace.t _

/-- Cutting after a list has been made. -/
theorem mapM_map {A B C : Type} (f : A → Option B) (g : B → C) (l : List A) :
    l.mapM (fun a => (f a).map g) = (l.mapM f).map (List.map g) := by
  induction l with
  | nil => rfl
  | cons a l ih =>
      rw [List.mapM_cons, List.mapM_cons, ih]
      cases f a with
      | none => rfl
      | some b => cases l.mapM f <;> rfl

/-- What the contexts on the call path of a line show, without prefixes. -/
theorem pathShown_agree (leafInFull : Bool) (hagree : Agree lines) (hline : line ∈ lines) :
    (pathShown leafInFull lines line.trace.t).map (List.map cutShown) = line.path := by
  rw [pathShown, ← mapM_map]
  exact mapM_congr_mem fun i hi => firstShown_agree leafInFull hagree hline (List.mem_range.mp hi)

/-- The contexts on the call path of a line show the path of the line. -/
theorem pathShown_cut (hagree : Agree lines) (hline : line ∈ lines) :
    pathShown false lines line.trace.t = line.path := by
  rw [← pathShown_agree false hagree hline, pathShown, ← mapM_map]
  exact mapM_congr_mem fun i _ => (map_cutShown_firstShown lines _).symm

end Agree

/-- A sample whose frames are shown without prefixes. -/
def cutSample (e : List Shown × List MetricMsg) : List Shown × List MetricMsg :=
  (e.1.map cutShown, e.2)

namespace DataBuilder.Profile

variable {p : Profile} {lines : List TraceLine}

/-- A profile shows the samples of its lines, up to prefixes. -/
theorem Shows.cut {leafInFull : Bool} (h : p.Shows leafInFull lines) (hagree : Agree lines) :
    ∃ samples, p.sample.mapM p.decodeSample = some samples ∧
      lines.mapM TraceLine.sample = some (samples.map cutSample) := by
  obtain ⟨samples, hdecode, hlines⟩ := h
  refine ⟨samples, hdecode, ?_⟩
  rw [← Option.map_some, ← hlines, ← mapM_map]
  refine mapM_congr_mem fun line hline => ?_
  rw [TraceLine.sample, ← pathShown_agree leafInFull hagree hline, lineSample]
  cases pathShown leafInFull lines line.trace.t <;> simp [cutSample]

/-- Without prefixes it shows them exactly. -/
theorem Shows.exact (h : p.Shows false lines) (hagree : Agree lines) :
    ∃ samples, p.sample.mapM p.decodeSample = some samples ∧
      lines.mapM TraceLine.sample = some samples := by
  obtain ⟨samples, hdecode, hlines⟩ := h
  refine ⟨samples, hdecode, ?_⟩
  rw [← hlines]
  refine mapM_congr_mem fun line hline => ?_
  rw [TraceLine.sample, lineSample, pathShown_cut hagree hline]

end DataBuilder.Profile

/-! ### Directories

`Convertible` collects what the converter relies on. `AcceptedBy` and the number of frames do
not depend on the order of the files. -/

/-- The sections of the converter. -/
def allSections : List KnownSection := [.cachemiss, .access, .alloc]

/-- What a section reads from a directory, up to the order of the threads. -/
def kindFiles (read : List Char → List Char) (files : List OutputFile) (kind : OutputKind) :
    List ThreadFiles :=
  (files.filter fun file => file.kind = kind).filterMap (filesOf read files)

/-- A directory that the converter reads to its end, and reads right: the ids keep the
threads apart, the numbers fit, and no two of the keys that the builders look up collide. -/
structure Convertible (hash : List Char → Int) (read : List Char → List Char)
    (files : List OutputFile) (filelist : List (List Char)) : Prop where
  order : filelist.Perm (files.map OutputFile.name)
  apart : ToldApart files
  accompanied : Accompanied files
  accepted : ∀ s ∈ allSections, AcceptedBy s.accepts (kindFiles read files s.kind)
  size : (allSections.map fun s =>
    KnownSection.frameCount (kindFiles read files s.kind)).sum < 2 ^ 64
  hashes : ∀ threads, profileDict filelist = some threads → ∀ calls ∈ sectionRuns read threads
    [.cachemiss, .access, .alloc] rootContexts,
      NoCollision hash (Builder.new.hashedRun hash calls)

/-- The lines of files of one kind, each read with the method file of its thread. -/
def kindLines (read : List Char → List Char) (files order : List OutputFile) : List TraceLine :=
  sectionLines (order.filterMap (filesOf read files))

/-- Files in another order are accepted too. -/
theorem AcceptedBy.perm {accepts : TraceLine → Prop} {threads threads' : List ThreadFiles}
    (h : AcceptedBy accepts threads) (hperm : threads'.Perm threads) :
    AcceptedBy accepts threads' where
  methods files hfiles := h.methods files (hperm.mem_iff.mp hfiles)
  traces files hfiles := h.traces files (hperm.mem_iff.mp hfiles)
  lines line hline := h.lines line ((hperm.flatMap_right _).mem_iff.mp hline)

/-- Files in another order have as many frames. -/
theorem frameCount_perm {threads threads' : List ThreadFiles} (hperm : threads'.Perm threads) :
    KnownSection.frameCount threads' = KnownSection.frameCount threads :=
  ((hperm.flatMap_right _).map _).sum_nat

section Convert

variable {hash : List Char → Int} {read : List Char → List Char} {tid : Nat → Nat}
  {files : List OutputFile} {filelist : List (List Char)}

/-- What the profiles of a directory show, for some order of the files of each kind. -/
theorem Convertible.shows (h : Convertible hash read files filelist) (hnamed : Named tid files) :
    ∃ cachemiss access alloc, convert hash read filelist = [cachemiss, access, alloc] ∧
      ∃ order : OutputKind → List OutputFile,
        (∀ kind, kind ≠ .method → (order kind).Perm (files.filter fun file => file.kind = kind)) ∧
        cachemiss.Shows false (kindLines read files (order .cachemiss)) ∧
        access.Shows true (kindLines read files (order .trace)) ∧
        alloc.Shows false ((kindLines read files (order .alloc)).filter TraceLine.known) := by
  obtain ⟨m, hm, hmap⟩ := threadProfileMap_mapOf hnamed h.order
  obtain ⟨d, hd, his⟩ := ProfileDict.profileDict_is hm
  -- a section reads the files of its kind in some order
  have horders : ∀ kind : OutputKind, ∃ order : List OutputFile, kind ≠ .method →
      order.Perm (files.filter fun file => file.kind = kind) ∧
      d.sectionFiles read kind (d.threadsOf kind) = some (order.filterMap (filesOf read files)) := by
    intro kind
    by_cases hkind : kind = .method
    · exact ⟨[], fun hne => absurd hkind hne⟩
    · obtain ⟨order, hperm, hfiles⟩ :=
        exists_sectionFiles hnamed h.apart h.accompanied hmap his hkind read
      exact ⟨order, fun _ => ⟨hperm, hfiles⟩⟩
  obtain ⟨order, horder⟩ := Classical.axiomOfChoice horders
  have hkinds : ∀ s ∈ allSections, s.kind ≠ .method := by
    simp [allSections, KnownSection.cachemiss, KnownSection.access, KnownSection.alloc,
      Section.cachemiss, Section.access, Section.alloc]
  have hperm : ∀ s ∈ allSections, ((order s.kind).filterMap (filesOf read files)).Perm
      (kindFiles read files s.kind) := fun s hs => ((horder s.kind (hkinds s hs)).1).filterMap _
  have hcounts : allSections.map (fun s => KnownSection.frameCount
      ((order s.kind).filterMap (filesOf read files))) =
      allSections.map fun s => KnownSection.frameCount (kindFiles read files s.kind) :=
    List.map_congr_left fun s hs => frameCount_perm (hperm s hs)
  have hshows := profiles_decode (fun kind => (order kind).filterMap (filesOf read files))
    represents_root (fun s hs => (horder s.kind (hkinds s hs)).2)
    (fun s hs => (h.accepted s hs).perm (hperm s hs))
    (by
      rw [hcounts, show (PathTree.root : PathTree TraceFrame).nodes.length = 0 from rfl,
        Nat.zero_add]
      exact h.size)
    (h.hashes d hd)
  have hconvert : convert hash read filelist =
      profilesOf hash (sectionRuns read d (allSections.map KnownSection.toSection) rootContexts) := by
    rw [convert, hd]
    rfl
  rw [hconvert]
  generalize profilesOf hash _ = profiles at hshows
  -- one profile for each of the sections
  cases hshows with
  | cons hcachemiss hshows =>
      cases hshows with
      | cons haccess hshows =>
          cases hshows with
          | cons halloc hshows =>
              cases hshows
              refine ⟨_, _, _, rfl, order, fun kind hkind => (horder kind hkind).1, ?_, ?_, halloc⟩
              · simpa [KnownSection.kept, KnownSection.cachemiss, Section.cachemiss,
                  kindLines] using hcachemiss
              · simpa [KnownSection.kept, KnownSection.access, Section.access,
                  kindLines] using haccess

end Convert

/-- **The converter.** The three profiles have the lines of their files, in some order of the
files: every frame shows what the first line through it does, and allocations with an unknown
method are left out. -/
theorem convert_shows {tid : Nat → Nat} (htid : ∀ writer, tid writer < 2 ^ 32)
    (opened : List (Nat × OutputKind)) (hash : List Char → Int) (read : List Char → List Char)
    (filelist : List (List Char))
    (h : Convertible hash read (documents tid opened) filelist) :
    ∃ cachemiss access alloc, convert hash read filelist = [cachemiss, access, alloc] ∧
      ∃ order : OutputKind → List OutputFile, (∀ kind, kind ≠ .method → (order kind).Perm
          ((documents tid opened).filter fun file => file.kind = kind)) ∧
        cachemiss.Shows false (kindLines read (documents tid opened) (order .cachemiss)) ∧
        access.Shows true (kindLines read (documents tid opened) (order .trace)) ∧
        alloc.Shows false
          ((kindLines read (documents tid opened) (order .alloc)).filter TraceLine.known) :=
  h.shows (named_documents htid opened)

/-- Three threads with the ids 7, 8 and 9. -/
def threeIds (writer : Nat) : Nat := if writer = 0 then 7 else if writer = 1 then 8 else 9

/-- The ids of the three threads fit 32 bits. -/
theorem threeIds_lt (writer : Nat) : threeIds writer < 2 ^ 32 := by
  unfold threeIds
  split
  · decide
  · split <;> decide

/-- The last thread has no method file. -/
def threeThreads : List (Nat × OutputKind) :=
  [(0, .method), (1, .method), (0, .trace), (1, .alloc), (0, .cachemiss), (2, .alloc)]

/-- The texts of the files. Method 48 is not known, and the second thread names the object
of method 16 otherwise than the first. -/
def threeTexts (name : List Char) : List Char :=
  match profileKey name with
  | some (['7'], kind) =>
    if kind = "method".toList then "16 f a.B.java\n32 g [x]a.C.java\n".toList
    else if kind = "trace".toList then "0:16 30103:32 |5\n".toList
    else "0:16 |2\n".toList
  | some (['8'], kind) =>
    if kind = "method".toList then "16 f [y]a.B.java\n".toList
    else "0:16 |1\n0:16 0:48 |3\n".toList
  | _ => "0:16 |4\n".toList

/-- The names of the files, backwards. -/
def threeNames : List (List Char) :=
  ((documents threeIds threeThreads).map OutputFile.name).reverse

/-- A hash without collisions. -/
def textHash (s : List Char) : Int := s.foldl (fun n c => n * 256 + c.toNat) 1

/-- The three threads leave a directory that can be converted. -/
theorem convertible_threeThreads :
    Convertible textHash threeTexts (documents threeIds threeThreads) threeNames where
  order := List.reverse_perm _
  apart := by decide +kernel
  accompanied := by decide +kernel
  accepted := by
    unfold allSections
    simp only [List.forall_mem_cons, List.not_mem_nil, false_imp_iff, implies_true, and_true]
    refine ⟨?_, ?_, ?_⟩
    · show AcceptedBy TraceLine.Ok _
      decide +kernel
    · show AcceptedBy TraceLine.Ok _
      decide +kernel
    · show AcceptedBy TraceLine.Reads _
      decide +kernel
  size := by decide +kernel
  hashes threads hthreads := by
    have hall : ∀ threads ∈ profileDict threeNames, ∀ calls ∈ sectionRuns threeTexts threads
        [.cachemiss, .access, .alloc] rootContexts,
          NoCollision textHash (Builder.new.hashedRun textHash calls) := by
      decide +kernel
    exact hall threads hthreads

/-- The profiles of the three threads show their lines. -/
theorem convert_shows_threeThreads :
    ∃ cachemiss access alloc, convert textHash threeTexts threeNames = [cachemiss, access, alloc] ∧
      ∃ order : OutputKind → List OutputFile, (∀ kind, kind ≠ .method → (order kind).Perm
          ((documents threeIds threeThreads).filter fun file => file.kind = kind)) ∧
        cachemiss.Shows false
          (kindLines threeTexts (documents threeIds threeThreads) (order .cachemiss)) ∧
        access.Shows true
          (kindLines threeTexts (documents threeIds threeThreads) (order .trace)) ∧
        alloc.Shows false ((kindLines threeTexts (documents threeIds threeThreads)
          (order .alloc)).filter TraceLine.known) :=
  convert_shows threeIds_lt threeThreads textHash threeTexts threeNames convertible_threeThreads

/-! ### Threads that name methods alike

With the order out of the way, the samples are compared as lists up to permutation. -/

/-- A list that was made element by element has an element for each. -/
theorem forall₂_of_mapM {A B : Type} {f : A → Option B} {l : List A} {r : List B}
    (h : l.mapM f = some r) : List.Forall₂ (fun a b => f a = some b) l r := by
  induction l generalizing r with
  | nil =>
      cases h
      exact .nil
  | cons a l ih =>
      rw [List.mapM_cons] at h
      simp only [Option.bind_eq_bind, Option.bind_eq_some_iff, Option.pure_def,
        Option.some.injEq] at h
      obtain ⟨b, hb, r', hr', rfl⟩ := h
      exact .cons hb (ih hr')

/-- From the same elements in another order, the same list is made in another order. -/
theorem mapM_perm {A B : Type} {f : A → Option B} {l l' : List A} {r : List B} (hperm : l'.Perm l)
    (h : l.mapM f = some r) : ∃ r', l'.mapM f = some r' ∧ r'.Perm r := by
  obtain ⟨r', hall, hr'⟩ := List.perm_comp_forall₂ hperm (forall₂_of_mapM h)
  exact ⟨r', Builder.mapM_eq_some hall, hr'⟩

/-- Some of the lines that agree agree among themselves. -/
theorem Agree.filter {lines : List TraceLine} (h : Agree lines) (keeps : TraceLine → Bool) :
    Agree (lines.filter keeps) := fun line hline line' hline' =>
  h line (List.mem_of_mem_filter hline) line' (List.mem_of_mem_filter hline')

/-- The samples are, in some order, those that the lines give. -/
def SamplesOf (samples : List (List Shown × List MetricMsg)) (lines : List TraceLine) : Prop :=
  ∃ given, lines.mapM TraceLine.sample = some given ∧ samples.Perm given

/-- The samples of lines in another order. -/
theorem samplesOf_perm {samples : List (List Shown × List MetricMsg)}
    {lines lines' : List TraceLine} (hperm : lines'.Perm lines)
    (h : lines.mapM TraceLine.sample = some samples) : SamplesOf samples lines' := by
  obtain ⟨given, hgiven, hsamples⟩ := mapM_perm hperm h
  exact ⟨given, hgiven, hsamples.symm⟩

/-- Lines that agree do so in any order. -/
theorem Agree.perm {lines lines' : List TraceLine} (h : Agree lines) (hperm : lines'.Perm lines) :
    Agree lines' := fun line hline line' hline' =>
  h line (hperm.mem_iff.mp hline) line' (hperm.mem_iff.mp hline')

/-- Files in another order have the same lines. -/
theorem kindLines_perm {read : List Char → List Char} {files order order' : List OutputFile}
    (hperm : order'.Perm order) : (kindLines read files order').Perm (kindLines read files order) :=
  (hperm.filterMap _).flatMap_right _

/-- **The converter, exactly.** When the threads name methods alike, the samples of the
profiles for cache misses and allocations are those of the lines, and so are those of the
profile for accesses, apart from the object prefixes. -/
theorem convert_exact {tid : Nat → Nat} (htid : ∀ writer, tid writer < 2 ^ 32)
    (opened : List (Nat × OutputKind)) (hash : List Char → Int) (read : List Char → List Char)
    (filelist : List (List Char)) (h : Convertible hash read (documents tid opened) filelist)
    (hagree : ∀ kind, kind ≠ .method →
      Agree (sectionLines (kindFiles read (documents tid opened) kind))) :
    ∃ cachemiss access alloc, convert hash read filelist = [cachemiss, access, alloc] ∧
      (∃ samples, cachemiss.sample.mapM cachemiss.decodeSample = some samples ∧
        SamplesOf samples (sectionLines (kindFiles read (documents tid opened) .cachemiss))) ∧
      (∃ samples, access.sample.mapM access.decodeSample = some samples ∧
        SamplesOf (samples.map cutSample)
          (sectionLines (kindFiles read (documents tid opened) .trace))) ∧
      ∃ samples, alloc.sample.mapM alloc.decodeSample = some samples ∧
        SamplesOf samples ((sectionLines (kindFiles read (documents tid opened) .alloc)).filter
          TraceLine.known) := by
  obtain ⟨cachemiss, access, alloc, hconvert, order, horder, hcachemiss, haccess, halloc⟩ :=
    h.shows (named_documents htid opened)
  have hperm : ∀ kind, kind ≠ .method →
      (sectionLines (kindFiles read (documents tid opened) kind)).Perm
        (kindLines read (documents tid opened) (order kind)) :=
    fun kind hkind => (kindLines_perm (horder kind hkind)).symm
  have hagree' : ∀ kind, kind ≠ .method →
      Agree (kindLines read (documents tid opened) (order kind)) :=
    fun kind hkind => (hagree kind hkind).perm (hperm kind hkind).symm
  obtain ⟨samples, hdecode, hlines⟩ := hcachemiss.exact (hagree' _ (by decide))
  obtain ⟨samples', hdecode', hlines'⟩ := haccess.cut (hagree' _ (by decide))
  obtain ⟨samples'', hdecode'', hlines''⟩ := halloc.exact ((hagree' _ (by decide)).filter _)
  exact ⟨cachemiss, access, alloc, hconvert,
    ⟨samples, hdecode, samplesOf_perm (hperm _ (by decide)) hlines⟩,
    ⟨samples', hdecode', samplesOf_perm (hperm _ (by decide)) hlines'⟩,
    samples'', hdecode'', samplesOf_perm ((hperm _ (by decide)).filter _) hlines''⟩

/-- The three threads name methods alike. -/
theorem convert_exact_threeThreads :
    ∃ cachemiss access alloc, convert textHash threeTexts threeNames = [cachemiss, access, alloc] ∧
      (∃ samples, cachemiss.sample.mapM cachemiss.decodeSample = some samples ∧
        SamplesOf samples
          (sectionLines (kindFiles threeTexts (documents threeIds threeThreads) .cachemiss))) ∧
      (∃ samples, access.sample.mapM access.decodeSample = some samples ∧
        SamplesOf (samples.map cutSample)
          (sectionLines (kindFiles threeTexts (documents threeIds threeThreads) .trace))) ∧
      ∃ samples, alloc.sample.mapM alloc.decodeSample = some samples ∧
        SamplesOf samples ((sectionLines (kindFiles threeTexts (documents threeIds threeThreads)
          .alloc)).filter TraceLine.known) := by
  refine convert_exact threeIds_lt threeThreads textHash threeTexts threeNames
    convertible_threeThreads fun kind hkind => ?_
  cases kind with
  | method => exact absurd rfl hkind
  | trace => decide +kernel
  | alloc => decide +kernel
  | cachemiss => decide +kernel

end DroidPerf
