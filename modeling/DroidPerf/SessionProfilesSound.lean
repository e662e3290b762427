import DroidPerf.RecordedFilesSound

/-!
# DroidPerf.SessionProfilesSound

From the threads of a process to the profiles.

`Session.Leaves` is the directory that a session leaves behind: a file for each stream that was
written to and deleted. When the ids of the threads differ, the converter makes three profiles
of it, whose samples are those that a recorder took which saw the same events
(`session_profiles`).

The result is put together from the two sides. `session_recorded` says that the streams of the
session are those of the recorder, and `Convertible.shows` what the profiles of a directory
show. What is left is to see that the directory is one that the converter accepts
(`Recorded.accepted`, `Recorded.accompanied`) and that its lines are those of the recordings
(`Recorded.kindLines_eq`).

A file is taken as the text that was written to it. The converter reads UTF-8, and the names
come in the modified UTF-8 of the virtual machine. For names without U+0000 and without
characters beyond U+FFFF the two are the same bytes (`NamedOutput.mutf8_eq_utf8`), and it is
for these that the text of a file is what the converter reads.
-/

namespace DroidPerf

open Text

open DataBuilder

/-! ### The directory

A stream has no file until something is written to it, so a thread may leave fewer than four. -/

/-- The stream of a kind. -/
def ThreadOutput.stream (o : ThreadOutput) : OutputKind → Option Output
  | .method => o.method
  | .trace => o.trace
  | .alloc => o.alloc
  | .cachemiss => o.cachemiss

namespace Session

/-- What an ended thread has written to the stream of a kind. The threads are numbered in the
order in which they ended. -/
def text (s : Session) (writer : Nat) (kind : OutputKind) : List Char :=
  ((s.closed[writer]?).bind fun o => o.stream kind).elim [] Output.text

/-- The id of an ended thread. -/
def tid (s : Session) (writer : Nat) : Nat := (s.closed[writer]?).elim 0 ThreadOutput.tid

/-- The directory has the files of the ended threads, which were opened in the given order:
one for each stream that was written to. -/
structure Leaves (s : Session) (opened : List (Nat × OutputKind))
    (read : List Char → List Char) : Prop where
  nodup : opened.Nodup
  written : ∀ writer kind, (writer, kind) ∈ opened ↔ s.text writer kind ≠ []
  read : ∀ file ∈ documents s.tid opened, read file.name = s.text file.writer file.kind

/-- No two ended threads had the same id. -/
structure Apart (s : Session) : Prop where
  tids : ∀ o ∈ s.closed, o.tid < 2 ^ 32
  nodup : (s.closed.map ThreadOutput.tid).Nodup

end Session

/-- The name of a file tells the kind and the thread. -/
theorem newOutput_fileName_injective {kind kind' : OutputKind} {tid tid' : Nat}
    (htid : tid < 2 ^ 32) (htid' : tid' < 2 ^ 32)
    (h : (newOutput kind.name tid).fileName = (newOutput kind'.name tid').fileName) :
    kind = kind' ∧ tid = tid' := by
  rw [fileName_newOutput kind htid, fileName_newOutput kind' htid', List.append_cancel_left_eq,
    List.cons_inj_right] at h
  have hkey := congrArg profileKey h
  rw [profileKey_stemName, profileKey_stemName, Option.some.injEq, Prod.mk.injEq] at hkey
  exact ⟨OutputKind.name_injective hkey.2, Int.ofNat_inj.mp (decimal_injective hkey.1)⟩

/-- The file of a stream under the name that was set. -/
def plainFile (tid : Nat → Nat) (o : Nat × OutputKind) : OutputFile :=
  ⟨o.1, o.2, tid o.1, (newOutput o.2.name (tid o.1)).fileName⟩

/-- A file whose name is not taken is opened under it. -/
theorem openOutput_new {tid : Nat → Nat} {files : List OutputFile} {writer : Nat} {kind : OutputKind}
    (h : (newOutput kind.name (tid writer)).fileName ∉ files.map OutputFile.path) :
    openOutput tid files writer kind = files ++ [plainFile tid (writer, kind)] := by
  unfold openOutput
  dsimp only
  rw [openFile_new h]
  simp only [plainFile]

/-- Threads with different ids find no files under their names. -/
theorem documents_eq {tid : Nat → Nat} (htid : ∀ writer, tid writer < 2 ^ 32)
    {opened : List (Nat × OutputKind)} (hnodup : opened.Nodup)
    (happart : ∀ o ∈ opened, ∀ o' ∈ opened, tid o.1 = tid o'.1 → o.1 = o'.1) :
    documents tid opened = opened.map (plainFile tid) := by
  induction opened using List.reverseRecOn with
  | nil => rfl
  | append_singleton opened o ih =>
      obtain ⟨hnodup, -, hnew⟩ := List.nodup_append.mp hnodup
      have hfirst := ih hnodup fun a ha b hb =>
        happart a (List.mem_append_left _ ha) b (List.mem_append_left _ hb)
      -- a file of another thread or another kind has another name
      have hpath : (newOutput o.2.name (tid o.1)).fileName ∉
          (opened.map (plainFile tid)).map OutputFile.path := by
        intro hmem
        obtain ⟨file, hfile, heq⟩ := List.mem_map.mp hmem
        obtain ⟨o', ho', rfl⟩ := List.mem_map.mp hfile
        simp only [plainFile] at heq
        obtain ⟨hkind, htids⟩ := newOutput_fileName_injective (htid o'.1) (htid o.1) heq
        have hwriter := happart o' (List.mem_append_left _ ho') o
          (List.mem_append_right _ (List.mem_singleton_self o)) htids
        exact hnew o' ho' o (List.mem_singleton_self o) (Prod.ext hwriter hkind)
      rw [documents, List.foldl_append, List.foldl_cons, List.foldl_nil, ← documents, hfirst,
        openOutput_new hpath, List.map_append, List.map_singleton]

namespace Session

variable {s : Session} {opened : List (Nat × OutputKind)} {read : List Char → List Char}

/-- The ids of the threads fit 32 bits. -/
theorem Apart.tid_lt (h : s.Apart) (writer : Nat) : s.tid writer < 2 ^ 32 := by
  unfold tid
  cases hwriter : s.closed[writer]? with
  | none => decide
  | some o => exact h.tids o (List.mem_of_getElem? hwriter)

/-- A thread with a file is one that has ended. -/
theorem Leaves.writer_lt (h : s.Leaves opened read) {o : Nat × OutputKind} (ho : o ∈ opened) :
    o.1 < s.closed.length := by
  by_contra hlt
  refine (h.written o.1 o.2).mp ho ?_
  rw [text, List.getElem?_eq_none (Nat.not_lt.mp hlt)]
  rfl

/-- Streams of threads with the same id are of one thread. -/
theorem Leaves.writer_eq (h : s.Leaves opened read) (happart : s.Apart) {o o' : Nat × OutputKind}
    (ho : o ∈ opened) (ho' : o' ∈ opened) (htid : s.tid o.1 = s.tid o'.1) : o.1 = o'.1 := by
  have hlt := h.writer_lt ho
  have hlt' := h.writer_lt ho'
  have hget : ∀ {w : Nat}, w < s.closed.length →
      (s.closed.map ThreadOutput.tid)[w]? = some (s.tid w) := by
    intro w hw
    rw [tid, List.getElem?_map, List.getElem?_eq_getElem hw]
    rfl
  refine (List.getElem?_inj (by simpa using hlt) happart.nodup).mp ?_
  rw [hget hlt, hget hlt', htid]

/-- All files have the names that were set. -/
theorem Leaves.documents_eq (h : s.Leaves opened read) (happart : s.Apart) :
    documents s.tid opened = opened.map (plainFile s.tid) :=
  DroidPerf.documents_eq happart.tid_lt h.nodup fun _ ho _ ho' => h.writer_eq happart ho ho'

end Session

/-! ### The recordings behind the files

The threads that have ended, in the order in which they did, on the side of the session and on
that of the recorder. -/

namespace Recorder

/-- The recording of an ended thread. -/
def recording (r : Recorder) (writer : Nat) : Recording :=
  ((r.ended[writer]?).bind Prod.snd).getD .empty

/-- The recordings of the threads that have ended. -/
def recordings (r : Recorder) : List Recording := r.ended.filterMap Prod.snd

variable {r : Recorder} {s : Session} {vm : VmMethods} {bytes : Nat}

/-- Every recording of a good recorder is good. -/
theorem Good.recording (h : r.Good vm bytes) (writer : Nat) : (r.recording writer).Good vm := by
  unfold Recorder.recording
  cases hlive : (r.ended[writer]?).bind Prod.snd with
  | none => exact Recording.good_empty vm
  | some recording =>
      obtain ⟨e, he, hlive⟩ := Option.bind_eq_some_iff.mp hlive
      exact h.ended e (List.mem_of_getElem? he) recording hlive

/-- All recordings of a good recorder are good. -/
theorem Good.recordings (h : r.Good vm bytes) :
    ∀ recording ∈ r.recordings, recording.Good vm := by
  intro recording hrecording
  obtain ⟨e, he, hlive⟩ := List.mem_filterMap.mp hrecording
  exact h.ended e he recording hlive

/-- A stream of a thread has the pieces of its recording. -/
theorem stream_outputOf (tid : Nat) (live : Option Recording) (kind : OutputKind) :
    (outputOf tid live).stream kind = live.map fun r => streamWith kind tid (r.pieces kind) := by
  cases kind <;> rfl

/-- The files of an ended thread are those of its recording. -/
theorem Describes.text (h : r.Describes s) (happart : s.Apart) (writer : Nat)
    (kind : OutputKind) : s.text writer kind = (r.recording writer).text kind := by
  have hempty : Recording.empty.text kind = [] := by cases kind <;> rfl
  have htids := happart.tids
  rw [h.closed] at htids
  unfold Session.text Recorder.recording
  rw [h.closed, List.getElem?_map]
  cases he : r.ended[writer]? with
  | none => exact hempty.symm
  | some e =>
      obtain ⟨tid, live⟩ := e
      rw [Option.map_some, Option.bind_some, Option.bind_some, stream_outputOf]
      cases live with
      | none => exact hempty.symm
      | some recording =>
          have htid : tid < 2 ^ 32 := htids _ (List.mem_map_of_mem (List.mem_of_getElem? he))
          exact text_streamWith kind htid recording

/-- A function that is empty on a recording without anything collects the same from all
numbers of threads and from all recordings. -/
theorem flatMap_recording {A : Type} (r : Recorder) {f : Recording → List A}
    (hf : f .empty = []) : (List.range r.ended.length).flatMap (fun w => f (r.recording w)) =
      r.recordings.flatMap f := by
  have hget : (List.range r.ended.length).map r.recording =
      r.ended.map fun e => e.2.getD .empty := by
    refine List.ext_getElem (by simp) fun w hw hw' => ?_
    have hlt : w < r.ended.length := by simpa using hw
    simp [recording, hlt]
  have hmap : (List.range r.ended.length).flatMap (fun w => f (r.recording w)) =
      (r.ended.map fun e => e.2.getD .empty).flatMap f := by
    rw [← hget, List.flatMap_map]
  rw [hmap, recordings]
  induction r.ended with
  | nil => rfl
  | cons e ended ih =>
      obtain ⟨tid, live⟩ := e
      cases live with
      | none => simpa [hf] using ih
      | some recording => simpa using ih

end Recorder

section Directory

variable {r : Recorder} {s : Session} {vm : VmMethods} {bytes : Nat}
  {opened : List (Nat × OutputKind)} {read : List Char → List Char}

/-- The files of a session whose recorder is known. -/
structure Session.Recorded (s : Session) (r : Recorder) (vm : VmMethods) (bytes : Nat)
    (opened : List (Nat × OutputKind)) (read : List Char → List Char) : Prop where
  describes : r.Describes s
  good : r.Good vm bytes
  leaves : s.Leaves opened read
  apart : s.Apart

namespace Session.Recorded

/-- A file was opened if there is something in it. -/
theorem mem_opened (h : s.Recorded r vm bytes opened read) {writer : Nat} {kind : OutputKind} :
    (writer, kind) ∈ opened ↔ (r.recording writer).text kind ≠ [] := by
  rw [h.leaves.written, h.describes.text h.apart]

/-- The file of a stream, and what is read from it. -/
theorem mem_documents (h : s.Recorded r vm bytes opened read) {file : OutputFile}
    (hfile : file ∈ documents s.tid opened) : (file.writer, file.kind) ∈ opened ∧
      file = plainFile s.tid (file.writer, file.kind) ∧
      read file.name = (r.recording file.writer).text file.kind := by
  have hread := h.leaves.read file hfile
  rw [h.describes.text h.apart] at hread
  rw [h.leaves.documents_eq h.apart] at hfile
  obtain ⟨o, ho, rfl⟩ := List.mem_map.mp hfile
  exact ⟨ho, rfl, hread⟩

/-- An opened stream has a file. -/
theorem plainFile_mem (h : s.Recorded r vm bytes opened read) {o : Nat × OutputKind}
    (ho : o ∈ opened) : plainFile s.tid o ∈ documents s.tid opened := by
  rw [h.leaves.documents_eq h.apart]
  exact List.mem_map_of_mem ho

/-- Files of threads with the same id are of one thread. -/
theorem writer_eq (h : s.Recorded r vm bytes opened read) {file other : OutputFile}
    (hfile : file ∈ documents s.tid opened) (hother : other ∈ documents s.tid opened)
    (htid : file.tid = other.tid) : file.writer = other.writer := by
  obtain ⟨ho, heq, -⟩ := h.mem_documents hfile
  obtain ⟨ho', heq', -⟩ := h.mem_documents hother
  rw [heq, heq'] at htid
  exact h.leaves.writer_eq h.apart ho ho' htid

/-- There is one file of a kind for a thread. -/
theorem file_eq (h : s.Recorded r vm bytes opened read) {file other : OutputFile}
    (hfile : file ∈ documents s.tid opened) (hother : other ∈ documents s.tid opened)
    (hkind : file.kind = other.kind) (htid : file.tid = other.tid) : file = other := by
  obtain ⟨-, heq, -⟩ := h.mem_documents hfile
  obtain ⟨-, heq', -⟩ := h.mem_documents hother
  rw [heq, heq', h.writer_eq hfile hother htid, hkind]

/-- The files can be told apart. -/
theorem toldApart (h : s.Recorded r vm bytes opened read) : ToldApart (documents s.tid opened) :=
  ⟨fun _ hfile _ hother => h.file_eq hfile hother,
    fun _ hfile _ _ hother _ htid => h.writer_eq hother hfile htid⟩

/-- The method file of a thread that has entered a method. -/
theorem methodFile_some (h : s.Recorded r vm bytes opened read) {writer : Nat}
    (hrows : (r.recording writer).text .method ≠ []) :
    ∃ file, methodFile (documents s.tid opened) writer = some file ∧
      read file.name = (r.recording writer).text .method := by
  have hmem := h.plainFile_mem (h.mem_opened.mpr hrows)
  have hfound : (methodFile (documents s.tid opened) writer).isSome = true := by
    rw [methodFile, List.find?_isSome]
    exact ⟨_, hmem, by simp [plainFile]⟩
  obtain ⟨file, hfile⟩ := Option.isSome_iff_exists.mp hfound
  have hkeys : file.writer = writer ∧ file.kind = .method := by
    simpa using List.find?_some hfile
  obtain ⟨-, -, hread⟩ := h.mem_documents (List.mem_of_find?_eq_some hfile)
  rw [hkeys.1, hkeys.2] at hread
  exact ⟨file, hfile, hread⟩

/-- A thread that has entered no method has no method file. -/
theorem methodFile_none (h : s.Recorded r vm bytes opened read) {writer : Nat}
    (hrows : (r.recording writer).text .method = []) :
    methodFile (documents s.tid opened) writer = none := by
  rw [methodFile, List.find?_eq_none]
  intro file hfile hkeys
  obtain ⟨hopened, -, -⟩ := h.mem_documents hfile
  have hkeys : file.writer = writer ∧ file.kind = .method := by simpa using hkeys
  rw [hkeys.1, hkeys.2] at hopened
  exact h.mem_opened.mp hopened hrows

/-- What a section reads for a file is what it reads for its recording. -/
theorem filesOf_eq (h : s.Recorded r vm bytes opened read) {file : OutputFile}
    (hfile : file ∈ documents s.tid opened) :
    filesOf read (documents s.tid opened) file = (r.recording file.writer).files file.kind := by
  obtain ⟨-, -, hread⟩ := h.mem_documents hfile
  unfold filesOf Recording.files
  split
  · rename_i hrows
    rw [h.methodFile_none hrows]
    rfl
  · rename_i hrows
    obtain ⟨method, hmethod, hreadMethod⟩ := h.methodFile_some hrows
    rw [hmethod, Option.map_some, hreadMethod, hread]

/-- A thread without a method file has no file but the one for allocations. -/
theorem accompanied (h : s.Recorded r vm bytes opened read) :
    Accompanied (documents s.tid opened) := by
  intro file hfile hkind
  by_cases hrows : (r.recording file.writer).text .method = []
  · -- a thread that has entered no method has an empty call path, and takes no samples
    right
    have halloc : ∀ other ∈ documents s.tid opened, other.writer = file.writer →
        other.kind = .alloc := by
      intro other hother hwriter
      obtain ⟨hopened, -, -⟩ := h.mem_documents hother
      have htext := h.mem_opened.mp hopened
      rw [hwriter] at htext
      by_contra hother
      exact htext ((h.good.recording file.writer).text_eq_nil
        (Recording.text_method_eq_nil_iff.mp hrows) hother)
    intro other hother htid
    have hwriter := h.writer_eq hother hfile htid
    exact h.file_eq hother hfile
      ((halloc other hother hwriter).trans (halloc file hfile rfl).symm) htid
  · left
    obtain ⟨method, hmethod, -⟩ := h.methodFile_some hrows
    rw [hmethod]
    rfl

/-! ### What the sections read

A section reads the files of its kind in the order of the directory. The recordings are in the
order of the ends of the threads, so lists are compared up to permutation. -/

/-- The files of a kind, with the lines of their recordings. -/
theorem kindLines_eq (h : s.Recorded r vm bytes opened read) {order : List OutputFile}
    (horder : ∀ file ∈ order, file ∈ documents s.tid opened) :
    kindLines read (documents s.tid opened) order =
      order.flatMap fun file => (r.recording file.writer).lines file.kind := by
  rw [kindLines, sectionLines]
  induction order with
  | nil => rfl
  | cons file order ih =>
      rw [List.forall_mem_cons] at horder
      obtain ⟨hfile, horder⟩ := horder
      have ih := ih horder
      rw [List.flatMap_cons, ← ih, Recording.lines, ← h.filesOf_eq hfile]
      cases hfiles : filesOf read (documents s.tid opened) file with
      | none => rw [List.filterMap_cons_none hfiles, Option.toList_none]; rfl
      | some files =>
          rw [List.filterMap_cons_some hfiles, List.flatMap_cons, Option.toList_some,
            List.flatMap_singleton]

/-- What a section reads is of some recording. -/
theorem mem_kindFiles (h : s.Recorded r vm bytes opened read) {kind : OutputKind}
    {f : ThreadFiles} (hf : f ∈ kindFiles read (documents s.tid opened) kind) :
    ∃ writer, (r.recording writer).files kind = some f := by
  obtain ⟨file, hfile, hfiles⟩ := List.mem_filterMap.mp hf
  obtain ⟨hmem, hkind⟩ := List.mem_filter.mp hfile
  rw [h.filesOf_eq hmem, of_decide_eq_true hkind] at hfiles
  exact ⟨file.writer, hfiles⟩

/-- A kind of files is accepted if the lines of all recordings are. -/
theorem acceptedBy (h : s.Recorded r vm bytes opened read) {kind : OutputKind}
    (hkind : kind ≠ .method) {accepts : TraceLine → Prop}
    (haccepts : ∀ writer, ∀ line ∈ (r.recording writer).lines kind, accepts line) :
    AcceptedBy accepts (kindFiles read (documents s.tid opened) kind) where
  methods f hf := by
    obtain ⟨writer, hfiles⟩ := h.mem_kindFiles hf
    obtain ⟨methodMap, hmap, -⟩ := (h.good.recording writer).files hkind hfiles
    exact ⟨methodMap, hmap⟩
  traces f hf := by
    obtain ⟨writer, hfiles⟩ := h.mem_kindFiles hf
    obtain ⟨-, -, -, -, htraces⟩ := (h.good.recording writer).files hkind hfiles
    exact htraces
  lines line hline := by
    obtain ⟨f, hf, hline⟩ := List.mem_flatMap.mp hline
    obtain ⟨writer, hfiles⟩ := h.mem_kindFiles hf
    refine haccepts writer line ?_
    rw [Recording.lines, hfiles, Option.toList_some, List.flatMap_singleton]
    exact hline

/-- Every section reads its files to their end. -/
theorem accepted (h : s.Recorded r vm bytes opened read) : ∀ known ∈ allSections,
    AcceptedBy known.accepts (kindFiles read (documents s.tid opened) known.kind) := by
  have hok : ∀ kind : OutputKind, kind ≠ .method → kind ≠ .alloc →
      AcceptedBy TraceLine.Ok (kindFiles read (documents s.tid opened) kind) := by
    intro kind hkind halloc
    refine h.acceptedBy hkind fun writer line hline => ?_
    have hgood := h.good.recording writer
    exact (hgood.lines_reads hkind hline).ok (hgood.lines_known hkind halloc hline)
  unfold allSections
  simp only [List.forall_mem_cons, List.not_mem_nil, false_imp_iff, implies_true, and_true]
  refine ⟨hok .cachemiss (by decide) (by decide), hok .trace (by decide) (by decide), ?_⟩
  exact h.acceptedBy (by decide) fun writer line hline =>
    (h.good.recording writer).lines_reads (by decide) hline

/-- Leaving out what contributes nothing. -/
theorem flatMap_filter {A B : Type} {p : A → Bool} {f : A → List B} {l : List A}
    (h : ∀ a ∈ l, p a = false → f a = []) : (l.filter p).flatMap f = l.flatMap f := by
  induction l with
  | nil => rfl
  | cons a l ih =>
      obtain ⟨ha, hl⟩ := List.forall_mem_cons.mp h
      cases hp : p a with
      | true => rw [List.filter_cons_of_pos hp, List.flatMap_cons, List.flatMap_cons, ih hl]
      | false =>
          rw [List.filter_cons_of_neg (by simp [hp]), List.flatMap_cons, ih hl, ha hp,
            List.nil_append]

/-- The writers of the files of a kind are the threads that have written to its streams. -/
theorem writers_perm (h : s.Recorded r vm bytes opened read) {kind : OutputKind}
    {order : List OutputFile} (horder : order.Perm
      ((documents s.tid opened).filter fun file => file.kind = kind)) :
    (order.map OutputFile.writer).Perm
      ((List.range r.ended.length).filter fun w => (r.recording w).text kind ≠ []) := by
  have hmem : ∀ file ∈ order, file ∈ documents s.tid opened ∧ file.kind = kind := by
    intro file hfile
    simpa using horder.mem_iff.mp hfile
  have hfiles : (documents s.tid opened).Nodup :=
    (named_documents h.apart.tid_lt opened).nodup.of_map _
  have hnodup : order.Nodup := horder.nodup_iff.mpr (hfiles.filter _)
  refine (List.perm_ext_iff_of_nodup ?_ (List.nodup_range.filter _)).mpr fun w => ?_
  · -- no thread has two files of the kind
    refine (List.nodup_map_iff_inj_on hnodup).mpr fun file hfile other hother hwriter => ?_
    obtain ⟨hfile, hkind⟩ := hmem file hfile
    obtain ⟨hother, hkind'⟩ := hmem other hother
    obtain ⟨-, heq, -⟩ := h.mem_documents hfile
    obtain ⟨-, heq', -⟩ := h.mem_documents hother
    rw [heq, heq', hwriter, hkind, hkind']
  · simp only [List.mem_map, List.mem_filter, List.mem_range, decide_eq_true_eq]
    constructor
    · intro hw
      obtain ⟨file, hfile, rfl⟩ := hw
      obtain ⟨hfile, rfl⟩ := hmem file hfile
      obtain ⟨hopened, -, -⟩ := h.mem_documents hfile
      refine ⟨?_, h.mem_opened.mp hopened⟩
      have hlt := h.leaves.writer_lt hopened
      rw [h.describes.closed, List.length_map] at hlt
      exact hlt
    · intro hw
      refine ⟨plainFile s.tid (w, kind), ?_, rfl⟩
      rw [horder.mem_iff, List.mem_filter]
      exact ⟨h.plainFile_mem (h.mem_opened.mpr hw.2), by simp [plainFile]⟩

/-- The lines of a kind, in whatever order its files are read, are those of the recordings. -/
theorem kindLines_perm (h : s.Recorded r vm bytes opened read) {kind : OutputKind}
    (hkind : kind ≠ .method) {order : List OutputFile} (horder : order.Perm
      ((documents s.tid opened).filter fun file => file.kind = kind)) :
    (kindLines read (documents s.tid opened) order).Perm
      (r.recordings.flatMap fun recording => recording.lines kind) := by
  have hmem : ∀ file ∈ order, file ∈ documents s.tid opened ∧ file.kind = kind := by
    intro file hfile
    simpa using horder.mem_iff.mp hfile
  have hkinds : (order.flatMap fun file => (r.recording file.writer).lines file.kind) =
      (order.map OutputFile.writer).flatMap fun w => (r.recording w).lines kind := by
    rw [List.flatMap_map]
    exact List.flatMap_congr fun file hfile => by rw [(hmem file hfile).2]
  have hempty : Recording.empty.lines kind = [] := rfl
  rw [h.kindLines_eq fun file hfile => (hmem file hfile).1, hkinds,
    ← r.flatMap_recording (f := fun recording => recording.lines kind) hempty]
  refine ((h.writers_perm horder).flatMap_right _).trans (.of_eq (flatMap_filter fun w _ hw => ?_))
  exact (h.good.recording w).lines_eq_nil hkind (by simpa using hw)

/-- Collecting and then reading, or the other way round. -/
theorem mapM_flatMap {A B C : Type} {f : A → List B} {g : B → Option C} {k : A → List C}
    {l : List A} (h : ∀ a ∈ l, (f a).mapM g = some (k a)) :
    (l.flatMap f).mapM g = some (l.flatMap k) := by
  induction l with
  | nil => rfl
  | cons a l ih =>
      obtain ⟨ha, hl⟩ := List.forall_mem_cons.mp h
      simp [List.mapM_append, ha, ih hl]

/-- The lines that a section keeps agree, and give the samples of the recordings. -/
theorem kept (h : s.Recorded r vm bytes opened read) {kind : OutputKind}
    (hkind : kind ≠ .method) {order : List OutputFile} (horder : order.Perm
      ((documents s.tid opened).filter fun file => file.kind = kind)) :
    Agree ((kindLines read (documents s.tid opened) order).filter TraceLine.known) ∧
      ∃ given, ((kindLines read (documents s.tid opened) order).filter TraceLine.known).mapM
          TraceLine.sample = some given ∧
        given.Perm (r.recordings.flatMap fun recording => recording.shown vm kind) := by
  have hgood := h.good.recordings
  have hperm := (h.kindLines_perm hkind horder).filter TraceLine.known
  have hsamples : ((r.recordings.flatMap fun recording => recording.lines kind).filter
      TraceLine.known).mapM TraceLine.sample =
        some (r.recordings.flatMap fun recording => recording.shown vm kind) := by
    rw [List.filter_flatMap]
    exact mapM_flatMap fun recording hrecording => (hgood recording hrecording).samples_eq hkind
  refine ⟨vm.agree fun line hline => ?_, mapM_perm hperm hsamples⟩
  obtain ⟨hline, hknown⟩ := List.mem_filter.mp (hperm.mem_iff.mp hline)
  obtain ⟨recording, hrecording, hline⟩ := List.mem_flatMap.mp hline
  exact (hgood recording hrecording).tells hkind hline hknown

/-- The sections for samples keep all lines. -/
theorem kept_all (h : s.Recorded r vm bytes opened read) {kind : OutputKind}
    (hkind : kind ≠ .method) (halloc : kind ≠ .alloc) {order : List OutputFile}
    (horder : order.Perm ((documents s.tid opened).filter fun file => file.kind = kind)) :
    (kindLines read (documents s.tid opened) order).filter TraceLine.known =
        kindLines read (documents s.tid opened) order ∧
      (r.recordings.flatMap fun recording => recording.shown vm kind) =
        r.recordings.flatMap fun recording => (recording.paths kind).map vm.sample := by
  have hgood := h.good.recordings
  constructor
  · refine List.filter_eq_self.mpr fun line hline => ?_
    obtain ⟨recording, hrecording, hline⟩ :=
      List.mem_flatMap.mp ((h.kindLines_perm hkind horder).mem_iff.mp hline)
    exact (hgood recording hrecording).lines_known hkind halloc hline
  · exact List.flatMap_congr fun recording hrecording =>
      (hgood recording hrecording).shown_eq halloc

end Session.Recorded

end Directory

/-- **From the process to the profiles.** Whatever happens in a process that allocates less
than 2 GiB, of threads with different ids and methods with names in one word: the converter
makes three profiles of the files of the ended threads, in whatever order these were opened and
are listed. The samples are those of a recorder that saw the same events, the accesses up to
object prefixes, and the allocations without those in a method that the thread has not entered. -/
theorem session_profiles {env : AgentEnv} {mask : Nat} {events : List AgentEvent} {s : Session}
    (hrun : Session.run env mask events = .ok s) {vm : VmMethods}
    (hevents : ∀ event ∈ events, vm.Event event)
    (hbytes : (events.map AgentEvent.allocated).sum < 2 ^ 31) (happart : s.Apart)
    {opened : List (Nat × OutputKind)} {read : List Char → List Char}
    (hleaves : s.Leaves opened read) {filelist : List (List Char)}
    (horder : filelist.Perm ((documents s.tid opened).map OutputFile.name))
    {hash : List Char → Int}
    (hsize : (allSections.map fun known => KnownSection.frameCount
      (kindFiles read (documents s.tid opened) known.kind)).sum < 2 ^ 64)
    (hhash : ∀ threads, profileDict filelist = some threads → ∀ calls ∈ sectionRuns read threads
      [.cachemiss, .access, .alloc] rootContexts,
        NoCollision hash (Builder.new.hashedRun hash calls)) :
    ∃ r, Recorder.Reaches events (Session.taken env mask events) r ∧ ∃ cachemiss access alloc,
      convert hash read filelist = [cachemiss, access, alloc] ∧
      (∃ samples, cachemiss.sample.mapM cachemiss.decodeSample = some samples ∧
        samples.Perm (r.recordings.flatMap fun recording =>
          (recording.paths .cachemiss).map vm.sample)) ∧
      (∃ samples, access.sample.mapM access.decodeSample = some samples ∧
        (samples.map cutSample).Perm (r.recordings.flatMap fun recording =>
          (recording.paths .trace).map vm.sample)) ∧
      ∃ samples, alloc.sample.mapM alloc.decodeSample = some samples ∧
        samples.Perm (r.recordings.flatMap fun recording =>
          ((recording.paths .alloc).filter recording.knows).map vm.sample) := by
  obtain ⟨r, hreaches, hdescribes⟩ := session_recorded hrun
  have hgood := hreaches.good hevents hbytes
  have hrecorded : s.Recorded r vm _ opened read := ⟨hdescribes, hgood, hleaves, happart⟩
  have hconvertible : Convertible hash read (documents s.tid opened) filelist :=
    ⟨horder, hrecorded.toldApart, hrecorded.accompanied, hrecorded.accepted, hsize, hhash⟩
  refine ⟨r, hreaches, ?_⟩
  obtain ⟨cachemiss, access, alloc, hconvert, order, hperm, hcachemiss, haccess, halloc⟩ :=
    hconvertible.shows (named_documents happart.tid_lt opened)
  have hmiss := hperm .cachemiss (by decide)
  have htrace := hperm .trace (by decide)
  have hobjects := hperm .alloc (by decide)
  obtain ⟨hagree, given, hgiven, hsame⟩ := hrecorded.kept (by decide) hmiss
  obtain ⟨hagree', given', hgiven', hsame'⟩ := hrecorded.kept (by decide) htrace
  obtain ⟨hagree'', given'', hgiven'', hsame''⟩ := hrecorded.kept (by decide) hobjects
  -- the sections for samples leave no line out, the one for allocations does
  obtain ⟨hall, hshown⟩ := hrecorded.kept_all (by decide) (by decide) hmiss
  obtain ⟨hall', hshown'⟩ := hrecorded.kept_all (by decide) (by decide) htrace
  rw [hall] at hagree hgiven
  rw [hall'] at hagree' hgiven'
  rw [hshown] at hsame
  rw [hshown'] at hsame'
  obtain ⟨samples, hdecode, hlines⟩ := hcachemiss.exact hagree
  obtain ⟨samples', hdecode', hlines'⟩ := haccess.cut hagree'
  obtain ⟨samples'', hdecode'', hlines''⟩ := halloc.exact hagree''
  refine ⟨cachemiss, access, alloc, hconvert, ⟨samples, hdecode, ?_⟩, ⟨samples', hdecode', ?_⟩,
    samples'', hdecode'', ?_⟩
  · rw [hgiven, Option.some.injEq] at hlines
    exact hlines ▸ hsame
  · rw [hgiven', Option.some.injEq] at hlines'
    exact hlines' ▸ hsame'
  · rw [hgiven'', Option.some.injEq] at hlines''
    exact hlines'' ▸ hsame''

/-! ### The profiles of two threads

A session of two threads that is small enough to be evaluated, for which all assumptions hold. -/

/-- The methods of `twoThreads`. -/
def twoMethods : VmMethods where
  methods := [16, 32]
  name m := if m = 16 then ['f'] else ['g']
  signature _ := "La/B;".toList
  names := by decide
  signatures := by decide
  printed := by decide
  notBuiltin := by decide

/-- All its events are such as the VM causes. -/
theorem event_twoThreads : ∀ event ∈ twoThreads, twoMethods.Event event := by
  have hcaller : twoMethods.Frame callerFrame := by
    refine ⟨by decide, rfl, rfl, fun t ht => ?_⟩
    cases ht
    decide
  have hcallee : twoMethods.Frame calleeFrame := ⟨by decide, rfl, rfl, nofun⟩
  have halloc : twoMethods.Alloc calleeAlloc := by
    refine ⟨by decide, by decide, fun frames hframes => ?_⟩
    cases hframes
    simp [hcaller, hcallee]
  simp [twoThreads, VmMethods.Event, hcaller, hcallee, halloc]

/-- The two threads have different ids. -/
theorem twoThreads_apart : twoThreadsSession.Apart where
  tids := by decide +kernel
  nodup := by decide +kernel

/-- The second thread has only entered a method. -/
def twoThreadsOpened : List (Nat × OutputKind) :=
  [(0, .method), (1, .method), (0, .alloc), (0, .trace), (0, .cachemiss)]

/-- The files it leaves. -/
def twoThreadsFiles : List OutputFile := documents twoThreadsSession.tid twoThreadsOpened

/-- What they hold. -/
def twoThreadsRead (name : List Char) : List Char :=
  match twoThreadsFiles.find? fun file => file.name = name with
  | some file => twoThreadsSession.text file.writer file.kind
  | none => []

/-- They are those of the streams that were deleted. -/
theorem twoThreads_leaves : twoThreadsSession.Leaves twoThreadsOpened twoThreadsRead where
  nodup := by decide
  written writer kind := by
    have hlength : twoThreadsSession.closed.length = 2 := by decide +kernel
    match writer with
    | 0 => cases kind <;> decide +kernel
    | 1 => cases kind <;> decide +kernel
    | writer + 2 =>
        have hnone : twoThreadsSession.text (writer + 2) kind = [] := by
          rw [Session.text, List.getElem?_eq_none (by omega)]
          rfl
        simp [hnone, twoThreadsOpened]
  read := by decide +kernel

/-- No two keys of the profiles collide. -/
theorem hashes_twoThreads : ∀ threads,
    profileDict (twoThreadsFiles.map OutputFile.name) = some threads →
      ∀ calls ∈ sectionRuns twoThreadsRead threads [.cachemiss, .access, .alloc] rootContexts,
        NoCollision textHash (Builder.new.hashedRun textHash calls) := by
  have hall : ∀ threads ∈ profileDict (twoThreadsFiles.map OutputFile.name),
      ∀ calls ∈ sectionRuns twoThreadsRead threads [.cachemiss, .access, .alloc] rootContexts,
        NoCollision textHash (Builder.new.hashedRun textHash calls) := by
    decide +kernel
  exact fun threads hthreads => hall threads hthreads

/-- The profiles of the two threads show their recordings. -/
theorem session_profiles_twoThreads :
    ∃ r, Recorder.Reaches twoThreads (Session.taken ⟨genericEnv, [cycles]⟩ 4095 twoThreads) r ∧
      ∃ cachemiss access alloc, convert textHash twoThreadsRead (twoThreadsFiles.map OutputFile.name) =
        [cachemiss, access, alloc] ∧
      (∃ samples, cachemiss.sample.mapM cachemiss.decodeSample = some samples ∧
        samples.Perm (r.recordings.flatMap fun recording =>
          (recording.paths .cachemiss).map twoMethods.sample)) ∧
      (∃ samples, access.sample.mapM access.decodeSample = some samples ∧
        (samples.map cutSample).Perm (r.recordings.flatMap fun recording =>
          (recording.paths .trace).map twoMethods.sample)) ∧
      ∃ samples, alloc.sample.mapM alloc.decodeSample = some samples ∧
        samples.Perm (r.recordings.flatMap fun recording =>
          ((recording.paths .alloc).filter recording.knows).map twoMethods.sample) :=
  session_profiles run_twoThreads event_twoThreads (by decide) twoThreads_apart twoThreads_leaves
    (List.Perm.refl _) (by decide +kernel) hashes_twoThreads

end DroidPerf
