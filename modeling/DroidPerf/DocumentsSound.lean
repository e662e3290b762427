import DroidPerf.Documents
import DroidPerf.NamedOutputSound

/-!
# DroidPerf.DocumentsSound

Which directories the converter reads right.

The names tell the kind of a file and the id of its thread, and no two files have one name; but
the converter drops what the agent adds to a name to keep it apart from others. So it keeps
every file, each with the method file of the same thread, exactly when the ids alone keep the
threads apart (`threadProfileMap_iff`).

`Named` is the invariant of the directory, kept by each stream that is opened
(`Named.openOutput`). On such a directory the map has, at each place, a file with these keys,
and a file at the place of each key (`MapOf`), in whatever order it was listed; both properties
of the map are then a matter of the ids.
-/

namespace DroidPerf

open Text

/-! ### Names

`openFile` works on the set of names that are there; the loop of the stream gets the same
answers from `open`, one at a time (`openLoop_directory`). -/

/-- The name of a file, up to what is added when a file of that name is there. -/
def stemName (kind : OutputKind) (tid : Nat) : List Char :=
  kind.name.toList ++ '-' :: ("thread".toList ++ '-' :: decimal tid)

/-- What the directory can hold: files of different names, each named after its kind and
the id of its thread. -/
structure Named (tid : Nat → Nat) (files : List OutputFile) : Prop where
  path : ∀ file ∈ files, ∃ suffix : List Char, '/' ∉ suffix ∧ file.path =
    "/sdcard/Documents".toList ++ '/' :: (stemName file.kind file.tid ++ '.' :: suffix)
  tid : ∀ file ∈ files, file.tid = tid file.writer
  nodup : (files.map OutputFile.path).Nodup

/-- The name that is found is new, and longer by some `f`s. -/
theorem openFile_eq_some {paths : List (List Char)} {room : Nat} {fileName path : List Char}
    (h : openFile paths room fileName = some path) :
    path ∉ paths ∧ ∃ k, path = fileName ++ List.replicate k 'f' := by
  induction room generalizing fileName with
  | zero =>
      unfold openFile at h
      split at h
      · cases h
      · rename_i hnew
        cases h
        exact ⟨hnew, 0, (List.append_nil _).symm⟩
  | succ room ih =>
      unfold openFile at h
      split at h
      · obtain ⟨hnew, k, rfl⟩ := ih h
        refine ⟨hnew, k + 1, ?_⟩
        rw [List.append_assoc, List.singleton_append, List.replicate_succ]
      · rename_i hnew
        cases h
        exact ⟨hnew, 0, (List.append_nil _).symm⟩

/-- A name that is not there is taken. -/
theorem openFile_new {paths : List (List Char)} {fileName : List Char} (h : fileName ∉ paths)
    (room : Nat) : openFile paths room fileName = some fileName := by
  unfold openFile
  exact if_neg h

/-- Without room in the buffer the search ends. -/
theorem openFile_full {paths : List (List Char)} {fileName : List Char} (h : fileName ∈ paths) :
    openFile paths 0 fileName = none := by
  unfold openFile
  exact if_pos h

/-- With room it goes on with the longer name. -/
theorem openFile_succ {paths : List (List Char)} {fileName : List Char} (h : fileName ∈ paths)
    (room : Nat) :
    openFile paths (room + 1) fileName = openFile paths room (fileName ++ ['f']) := by
  rw [openFile]
  exact if_pos h

/-- The directory in which `open` looks for the names of a stream: it fails with `EEXIST` for
the names that are there. -/
def OpensIn (env : OutputEnv) (paths : List (List Char)) (fd : Nat) (o : NamedOutput)
    (fileName : List Char) : Prop :=
  o.fileName = NamedOutput.mutf8 fileName ∧ ∀ i,
    (fileName ++ List.replicate i 'f' ∈ paths → env.opens (o.openCalls + i) = .eexist) ∧
      (fileName ++ List.replicate i 'f' ∉ paths → env.opens (o.openCalls + i) = .opened fd)

/-- What `open` answers for a name: whether there is a file of that name. -/
theorem OpensIn.first {env : OutputEnv} {paths : List (List Char)} {fd : Nat} {o : NamedOutput}
    {fileName : List Char} (h : OpensIn env paths fd o fileName) :
    (fileName ∈ paths → env.opens o.openCalls = .eexist) ∧
      (fileName ∉ paths → env.opens o.openCalls = .opened fd) := by
  have hzero := h.2 0
  rwa [Nat.add_zero, List.replicate_zero, List.append_nil] at hzero

/-- The answers for the names from the next one on. -/
theorem OpensIn.next {env : OutputEnv} {paths : List (List Char)} {fd : Nat} {o : NamedOutput}
    {fileName : List Char} (h : OpensIn env paths fd o fileName) :
    OpensIn env paths fd o.next (fileName ++ ['f']) := by
  refine ⟨?_, fun i => ?_⟩
  · rw [NamedOutput.mutf8_append, ← h.1]
    rfl
  · have hi := h.2 (i + 1)
    have hcalls : o.openCalls + (i + 1) = o.next.openCalls + i := by
      simp only [NamedOutput.next]
      omega
    rwa [List.replicate_succ, List.append_cons, hcalls] at hi

/-- The loop of a stream finds the name that `openFile` finds. -/
theorem openLoop_directory {env : OutputEnv} {paths : List (List Char)} {room fd fuel : Nat}
    {fileName : List Char} {o : NamedOutput} (h : OpensIn env paths fd o fileName)
    (hroom : nameBufferSize - 1 - byteSize fileName = room) (hfuel : room < fuel) :
    match openFile paths room fileName with
    | some path => ∃ k, o.openLoop env fuel = .ok (true, o.tried k fd) ∧
        path = fileName ++ List.replicate k 'f'
    | none => ∃ k, o.openLoop env fuel = .ok (false, o.tried k o.fd) := by
  induction fuel generalizing room fileName o with
  | zero => cases hfuel
  | succ fuel ih =>
      have hlength : o.fileName.length = byteSize fileName := by
        rw [h.1, NamedOutput.length_mutf8]
      by_cases hmem : fileName ∈ paths
      · have hopen := h.first.1 hmem
        cases room with
        | zero =>
            -- the buffer is full
            have hfull : nameBufferSize - 1 ≤ o.fileName.length := by omega
            rw [openFile_full hmem]
            exact ⟨0, by simp [NamedOutput.openLoop, hopen, hfull, NamedOutput.tried]⟩
        | succ room =>
            have hsize : byteSize (fileName ++ ['f']) = byteSize fileName + 1 := by
              rw [byteSize_append]
              rfl
            -- the name grows by a byte and the room shrinks by one
            have hleft : nameBufferSize - 1 - byteSize (fileName ++ ['f']) = room := by omega
            have hrest := ih h.next hleft (by omega)
            rw [openFile_succ hmem, NamedOutput.openLoop_next (by omega) hopen]
            cases hfile : openFile paths room (fileName ++ ['f']) with
            | none =>
                rw [hfile] at hrest
                obtain ⟨k, hk⟩ := hrest
                exact ⟨k + 1, by rw [hk, NamedOutput.tried_next]; rfl⟩
            | some path =>
                rw [hfile] at hrest
                obtain ⟨k, hk, rfl⟩ := hrest
                refine ⟨k + 1, by rw [hk, NamedOutput.tried_next], ?_⟩
                rw [List.replicate_succ, List.append_assoc, List.singleton_append]
      · have hopen := h.first.2 hmem
        rw [openFile_new hmem]
        exact ⟨0, by simp [NamedOutput.openLoop, hopen, NamedOutput.tried], by simp⟩

/-- The name of a stream ends in `run`. -/
theorem fileName_newOutput (kind : OutputKind) {tid : Nat} (htid : tid < 2 ^ 32) :
    (newOutput kind.name tid).fileName =
      "/sdcard/Documents".toList ++ '/' :: (stemName kind tid ++ '.' :: "run".toList) := by
  have hid : byteSize (decimal tid) ≤ 11 := byteSize_decimal_le (by decide) (by omega)
  have hkind : byteSize kind.name.toList ≤ 9 := by cases kind <;> decide
  have hdir : byteSize "/sdcard/Documents/".toList = 18 := by decide
  have hthread : byteSize "-thread-".toList = 8 := by decide
  have hrun : byteSize ".run".toList = 4 := by decide
  unfold newOutput Output.setFileName
  rw [if_neg (by decide), if_neg]
  · simp [stemName]
  · simp only [byteSize_append, hdir, hthread, hrun, nameBufferSize]
    omega

/-- A stream that opens its file adds one to the directory. -/
theorem Named.openOutput {tid : Nat → Nat} {files : List OutputFile} (h : Named tid files)
    {writer : Nat} (htid : tid writer < 2 ^ 32) (kind : OutputKind) :
    Named tid (openOutput tid files writer kind) := by
  unfold DroidPerf.openOutput
  dsimp only
  split
  · rename_i path hopen
    obtain ⟨hnew, k, hpath⟩ := openFile_eq_some hopen
    rw [fileName_newOutput kind htid] at hpath
    refine ⟨?_, ?_, ?_⟩
    · rw [List.forall_mem_append]
      refine ⟨h.path, fun file hfile => ?_⟩
      rw [List.mem_singleton.mp hfile]
      refine ⟨"run".toList ++ List.replicate k 'f', ?_, ?_⟩
      · simp
      · simp [hpath]
    · rw [List.forall_mem_append]
      refine ⟨h.tid, fun file hfile => ?_⟩
      rw [List.mem_singleton.mp hfile]
    · rw [List.map_append, List.map_singleton, List.nodup_append]
      refine ⟨h.nodup, List.nodup_singleton _, ?_⟩
      rintro path' hpath' other hother rfl
      have heq : path' = path := List.mem_singleton.mp hother
      exact hnew (heq ▸ hpath')
  · exact h

/-- All directories that the threads leave are of this kind. -/
theorem named_documents {tid : Nat → Nat} (htid : ∀ writer, tid writer < 2 ^ 32)
    (opened : List (Nat × OutputKind)) : Named tid (documents tid opened) := by
  unfold documents
  refine List.foldlRecOn opened _ ⟨by simp, by simp, .nil⟩ fun files hfiles o _ => ?_
  exact hfiles.openOutput (htid o.1) o.2

/-- A name is read as the kind and the id. -/
theorem profileKey_stemName (kind : OutputKind) (tid : Nat) (suffix : List Char) :
    profileKey (stemName kind tid ++ '.' :: suffix) = some (decimal tid, kind.name.toList) := by
  have hkind : '.' ∉ kind.name.toList ∧ '-' ∉ kind.name.toList := by cases kind <;> decide
  have hid : '.' ∉ decimal tid := (numeric_decimal _).notMem (by decide) (by decide)
  have hminus : '-' ∉ decimal tid := by
    intro hmem
    exact absurd (Nat.isDigit_of_mem_toDigits (by decide) (by decide) hmem) (by decide)
  have hstem : '.' ∉ stemName kind tid := by
    simp [stemName, hkind.1, hid]
  unfold profileKey
  rw [List.splitOn_append_cons_self_of_not_mem hstem, List.headD_cons, stemName,
    List.splitOn_append_cons_self_of_not_mem hkind.2,
    List.splitOn_append_cons_self_of_not_mem (by decide), List.splitOn_eq_singleton hminus]

/-- The name of a file in the directory. -/
theorem Named.name {tid : Nat → Nat} {files : List OutputFile} (h : Named tid files)
    {file : OutputFile} (hfile : file ∈ files) : ∃ suffix,
      file.name = stemName file.kind file.tid ++ '.' :: suffix ∧
      file.path = "/sdcard/Documents/".toList ++ file.name := by
  obtain ⟨suffix, hsuffix, hpath⟩ := h.path file hfile
  have hkind : '/' ∉ file.kind.name.toList := by cases file.kind <;> decide
  have hid : '/' ∉ decimal file.tid := (numeric_decimal _).notMem (by decide) (by decide)
  have hslash : '/' ∉ stemName file.kind file.tid ++ '.' :: suffix := by
    simp [stemName, hkind, hid, hsuffix]
  have hname : file.name = stemName file.kind file.tid ++ '.' :: suffix := by
    rw [OutputFile.name, hpath, afterLast_append hslash]
  refine ⟨suffix, hname, ?_⟩
  rw [hname, hpath]
  simp

/-- The keys of a file in the directory. -/
theorem Named.profileKey {tid : Nat → Nat} {files : List OutputFile} (h : Named tid files)
    {file : OutputFile} (hfile : file ∈ files) :
    profileKey file.name = some (decimal file.tid, file.kind.name.toList) := by
  obtain ⟨suffix, hname, -⟩ := h.name hfile
  rw [hname, profileKey_stemName]

/-- Files are told apart by their names. -/
theorem Named.eq_of_name {tid : Nat → Nat} {files : List OutputFile} (h : Named tid files)
    {file file' : OutputFile} (hfile : file ∈ files) (hfile' : file' ∈ files)
    (hname : file.name = file'.name) : file = file' := by
  obtain ⟨-, -, hpath⟩ := h.name hfile
  obtain ⟨-, -, hpath'⟩ := h.name hfile'
  exact List.inj_on_of_nodup_map h.nodup hfile hfile' (by rw [hpath, hpath', hname])

/-! ### The map of the converter

The loop over the listing keeps three facts: where an entry comes from, that entries stay
filled, and that each file has filled its place. -/

/-- A file takes the place that its keys give. -/
theorem addProfile_eq {f : List Char} {key : List Char × List Char}
    (hkey : profileKey f = some key) (m : List Char → List Char → Option (List Char)) :
    ∃ m', addProfile m f = some m' ∧
      ∀ tid kind, m' tid kind = if key = (tid, kind) then some f else m tid kind := by
  obtain ⟨tid', kind'⟩ := key
  refine ⟨_, by simp [addProfile, hkey]; rfl, fun tid kind => ?_⟩
  rcases eq_or_ne tid tid' with rfl | htid
  · rw [Function.update_self]
    rcases eq_or_ne kind kind' with rfl | hkind
    · rw [Function.update_self, if_pos rfl]
    · rw [Function.update_of_ne hkind, if_neg]
      exact fun heq => hkind (Prod.mk.inj heq).2.symm
  · rw [Function.update_of_ne htid, if_neg]
    exact fun heq => htid (Prod.mk.inj heq).1.symm

/-- The map after some files: an entry is one of them or was there, and the place of each file
is taken. -/
theorem foldlM_addProfile {filelist : List (List Char)} {key : List Char → List Char × List Char}
    (hkey : ∀ f ∈ filelist, profileKey f = some (key f))
    (m : List Char → List Char → Option (List Char)) :
    ∃ m', filelist.foldlM addProfile m = some m' ∧
      (∀ tid kind f, m' tid kind = some f →
        f ∈ filelist ∧ key f = (tid, kind) ∨ m tid kind = some f) ∧
      (∀ tid kind, m tid kind ≠ none → m' tid kind ≠ none) ∧
      ∀ f ∈ filelist, m' (key f).1 (key f).2 ≠ none := by
  induction filelist generalizing m with
  | nil => exact ⟨m, rfl, fun _ _ _ h => .inr h, fun _ _ h => h, fun f hf => (nomatch hf)⟩
  | cons f filelist ih =>
      rw [List.forall_mem_cons] at hkey
      obtain ⟨hf, hrest⟩ := hkey
      obtain ⟨m₁, hadd, hentry⟩ := addProfile_eq hf m
      obtain ⟨m', hrun, hfrom, hkeeps, hlast⟩ := ih hrest m₁
      refine ⟨m', ?_, ?_, ?_, ?_⟩
      · rw [List.foldlM_cons, hadd]
        exact hrun
      · intro tid kind f' hf'
        -- the entry comes from a later file, from this one, or from before
        rcases hfrom tid kind f' hf' with ⟨hmem, hk⟩ | hbefore
        · exact .inl ⟨List.mem_cons_of_mem _ hmem, hk⟩
        · rw [hentry] at hbefore
          split at hbefore
          · rename_i hk
            cases hbefore
            exact .inl ⟨List.mem_cons_self, hk⟩
          · exact .inr hbefore
      · intro tid kind hne
        refine hkeeps tid kind ?_
        rw [hentry]
        split
        · exact Option.some_ne_none _
        · exact hne
      · rw [List.forall_mem_cons]
        refine ⟨hkeeps _ _ ?_, hlast⟩
        rw [hentry, if_pos rfl]
        exact Option.some_ne_none _

/-- The method file of a thread. -/
def methodFile (files : List OutputFile) (writer : Nat) : Option OutputFile :=
  files.find? fun file => file.writer = writer ∧ file.kind = .method

/-- Every file is somewhere in the map. -/
def KeepsEvery (m : List Char → List Char → Option (List Char)) (files : List OutputFile) :
    Prop :=
  ∀ file ∈ files, ∃ tid kind, m tid kind = some file.name

/-- Wherever a file that is no method file stands in the map, the method file beside it is
that of the thread that wrote the file. -/
def PairsEvery (m : List Char → List Char → Option (List Char)) (files : List OutputFile) :
    Prop :=
  ∀ file ∈ files, file.kind ≠ .method → ∀ tid, m tid file.kind.name.toList = some file.name →
    m tid OutputKind.method.name.toList = (methodFile files file.writer).map OutputFile.name

/-- The ids keep the threads apart: no two files are of one kind and one id, and a method
file of the id of another file is by the same thread. -/
def ToldApart (files : List OutputFile) : Prop :=
  (∀ file ∈ files, ∀ other ∈ files, file.kind = other.kind → file.tid = other.tid →
    file = other) ∧
  ∀ file ∈ files, file.kind ≠ .method → ∀ other ∈ files, other.kind = .method →
    other.tid = file.tid → other.writer = file.writer

instance (files : List OutputFile) : Decidable (ToldApart files) :=
  inferInstanceAs (Decidable (_ ∧ _))

/-- The names of the kinds are different. -/
theorem OutputKind.name_injective {kind kind' : OutputKind}
    (h : kind.name.toList = kind'.name.toList) : kind = kind' := by
  cases kind <;> cases kind' <;> first | rfl | exact absurd h (by decide)

/-- What `threadProfileMap` is on the files of a directory. -/
structure MapOf (files : List OutputFile) (m : List Char → List Char → Option (List Char)) :
    Prop where
  source : ∀ tid kind f, m tid kind = some f → ∃ file ∈ files, f = file.name ∧
    tid = decimal file.tid ∧ kind = file.kind.name.toList
  entry : ∀ file ∈ files, m (decimal file.tid) file.kind.name.toList ≠ none

/-- In any order of the listing the converter gets such a map. -/
theorem threadProfileMap_mapOf {tid : Nat → Nat} {files : List OutputFile} (h : Named tid files)
    {filelist : List (List Char)} (horder : filelist.Perm (files.map OutputFile.name)) :
    ∃ m, threadProfileMap filelist = some m ∧ MapOf files m := by
  have hfile : ∀ f ∈ filelist, ∃ file ∈ files, f = file.name := by
    intro f hf
    obtain ⟨file, hfile, rfl⟩ := List.mem_map.mp (horder.mem_iff.mp hf)
    exact ⟨file, hfile, rfl⟩
  have hkey : ∀ f ∈ filelist, profileKey f = some ((profileKey f).getD ([], [])) := by
    intro f hf
    obtain ⟨file, hfile, rfl⟩ := hfile f hf
    rw [h.profileKey hfile, Option.getD_some]
  obtain ⟨m, hm, hfrom, -, hlast⟩ := foldlM_addProfile hkey fun _ _ => none
  refine ⟨m, hm, ?_, ?_⟩
  · intro tid kind f hf
    rcases hfrom tid kind f hf with ⟨hmem, hk⟩ | hnone
    · obtain ⟨file, hfile, rfl⟩ := hfile f hmem
      rw [h.profileKey hfile, Option.getD_some, Prod.mk.injEq] at hk
      exact ⟨file, hfile, rfl, hk.1.symm, hk.2.symm⟩
    · cases hnone
  · intro file hfile
    have hmem := horder.mem_iff.mpr (List.mem_map_of_mem hfile)
    have hne := hlast _ hmem
    rw [h.profileKey hfile] at hne
    exact hne

section

variable {tid : Nat → Nat} {files : List OutputFile}
variable {m : List Char → List Char → Option (List Char)}

/-- A place in the map that is taken by a file of the kind and id that it is for. -/
theorem MapOf.entry_eq (h : MapOf files m) {file : OutputFile} (hfile : file ∈ files) :
    ∃ other ∈ files, m (decimal file.tid) file.kind.name.toList = some other.name ∧
      other.tid = file.tid ∧ other.kind = file.kind := by
  obtain ⟨f, hf⟩ := Option.ne_none_iff_exists'.mp (h.entry file hfile)
  obtain ⟨other, hother, rfl, htid, hkind⟩ := h.source _ _ _ hf
  refine ⟨other, hother, hf, ?_, (OutputKind.name_injective hkind).symm⟩
  exact Int.ofNat_inj.mp (decimal_injective htid).symm

/-- A file that is in the map is where its kind and id are. -/
theorem MapOf.place (h : MapOf files m) (hnamed : Named tid files) {file : OutputFile}
    (hfile : file ∈ files) {key kind : List Char} (hm : m key kind = some file.name) :
    key = decimal file.tid ∧ kind = file.kind.name.toList := by
  obtain ⟨other, hother, hname, hkey, hkind⟩ := h.source _ _ _ hm
  rw [hnamed.eq_of_name hfile hother hname]
  exact ⟨hkey, hkind⟩

/-- If the map keeps and pairs all files, the ids keep the threads apart. -/
theorem MapOf.toldApart (h : MapOf files m) (hnamed : Named tid files) (hkeeps : KeepsEvery m files)
    (hpairs : PairsEvery m files) : ToldApart files := by
  have hplace : ∀ file ∈ files, m (decimal file.tid) file.kind.name.toList = some file.name := by
    intro file hfile
    obtain ⟨key, kind, hm⟩ := hkeeps file hfile
    obtain ⟨rfl, rfl⟩ := h.place hnamed hfile hm
    exact hm
  refine ⟨fun file hfile other hother hkind htid => ?_, ?_⟩
  · refine hnamed.eq_of_name hfile hother (Option.some.inj ?_)
    rw [← hplace file hfile, ← hplace other hother, hkind, htid]
  · intro file hfile hmethod other hother hkind htid
    have hpair := hpairs file hfile hmethod _ (hplace file hfile)
    rw [← htid, ← hkind, hplace other hother] at hpair
    obtain ⟨found, hfound, hname⟩ := Option.map_eq_some_iff.mp hpair.symm
    have hmem := List.mem_of_find?_eq_some hfound
    have hwriter := List.find?_some hfound
    rw [decide_eq_true_iff] at hwriter
    rw [← hnamed.eq_of_name hmem hother hname]
    exact hwriter.1

/-- If the ids keep the threads apart, no file takes the place of another one. -/
theorem MapOf.keepsEvery (h : MapOf files m) (happart : ToldApart files) : KeepsEvery m files := by
  intro file hfile
  obtain ⟨other, hother, hm, htid, hkind⟩ := h.entry_eq hfile
  rw [happart.1 other hother file hfile hkind htid] at hm
  exact ⟨_, _, hm⟩

/-- A file does not find the method file of another thread. -/
theorem MapOf.pairsEvery (h : MapOf files m) (hnamed : Named tid files)
    (happart : ToldApart files) : PairsEvery m files := by
  intro file hfile hmethod key hm
  obtain ⟨rfl, -⟩ := h.place hnamed hfile hm
  cases hfound : methodFile files file.writer with
  | none =>
      -- a method file in the map would be one of the same thread
      by_contra hsome
      obtain ⟨f, hf⟩ := Option.ne_none_iff_exists'.mp hsome
      obtain ⟨other, hother, -, htid, hkind⟩ := h.source _ _ _ hf
      have hkind' : other.kind = .method := (OutputKind.name_injective hkind).symm
      have htid' : other.tid = file.tid := Int.ofNat_inj.mp (decimal_injective htid).symm
      have hwriter := happart.2 file hfile hmethod other hother hkind' htid'
      have hnot := List.find?_eq_none.mp hfound other hother
      simp [hwriter, hkind'] at hnot
  | some found =>
      have hmem := List.mem_of_find?_eq_some hfound
      have hwriter := List.find?_some hfound
      rw [decide_eq_true_iff] at hwriter
      have htid : found.tid = file.tid := by
        rw [hnamed.tid found hmem, hnamed.tid file hfile, hwriter.1]
      obtain ⟨other, hother, hm', htid', hkind'⟩ := h.entry_eq hmem
      rw [happart.1 other hother found hmem hkind' htid', htid, hwriter.2] at hm'
      exact hm'

end

/-- **The files of threads.** For every directory that the threads can leave and every order in
which it is listed, the converter keeps every file and pairs it with the method file of its
thread exactly when the ids keep the threads apart. -/
theorem threadProfileMap_iff {tid : Nat → Nat} (htid : ∀ writer, tid writer < 2 ^ 32)
    (opened : List (Nat × OutputKind)) {filelist : List (List Char)}
    (horder : filelist.Perm ((documents tid opened).map OutputFile.name)) :
    (∃ m, threadProfileMap filelist = some m ∧ KeepsEvery m (documents tid opened) ∧
        PairsEvery m (documents tid opened)) ↔
      ToldApart (documents tid opened) := by
  have hnamed := named_documents htid opened
  obtain ⟨m, hm, hmap⟩ := threadProfileMap_mapOf hnamed horder
  constructor
  · rintro ⟨m', hm', hkeeps, hpairs⟩
    obtain rfl : m = m' := Option.some.inj (hm.symm.trans hm')
    exact hmap.toldApart hnamed hkeeps hpairs
  · intro happart
    exact ⟨m, hm, hmap.keepsEvery happart, hmap.pairsEvery hnamed happart⟩

/-- Two threads with the ids 7 and 8. -/
def twoIds (writer : Nat) : Nat := if writer = 0 then 7 else 8

/-- The files of two threads, listed backwards. -/
theorem threadProfileMap_iff_two_threads :
    ∃ m, threadProfileMap ((documents twoIds
        [(0, .method), (1, .method), (0, .trace), (1, .alloc)]).map OutputFile.name).reverse =
          some m ∧
      KeepsEvery m (documents twoIds [(0, .method), (1, .method), (0, .trace), (1, .alloc)]) ∧
      PairsEvery m (documents twoIds [(0, .method), (1, .method), (0, .trace), (1, .alloc)]) := by
  have htid : ∀ writer, twoIds writer < 2 ^ 32 := by
    intro writer
    unfold twoIds
    split <;> decide
  exact (threadProfileMap_iff htid _ (List.reverse_perm _)).mpr (by decide +kernel)

/-- A thread that has the id of an earlier one takes the place of its files. -/
theorem threadProfileMap_fails_reused_id :
    ¬ ∀ (tid : Nat → Nat), (∀ writer, tid writer < 2 ^ 32) →
      ∀ (opened : List (Nat × OutputKind)) (filelist : List (List Char)),
        filelist.Perm ((documents tid opened).map OutputFile.name) →
          ∃ m, threadProfileMap filelist = some m ∧ KeepsEvery m (documents tid opened) ∧
            PairsEvery m (documents tid opened) := by
  intro h
  have htid : ∀ writer, (fun _ => 7 : Nat → Nat) writer < 2 ^ 32 := by simp
  obtain ⟨m, hm, hkeeps, hpairs⟩ :=
    h _ htid [(0, .method), (0, .trace), (1, .method), (1, .trace)] _ (.refl _)
  have hnamed := named_documents htid [(0, .method), (0, .trace), (1, .method), (1, .trace)]
  obtain ⟨m', hm', hmap⟩ := threadProfileMap_mapOf hnamed (.refl _)
  obtain rfl : m' = m := Option.some.inj (hm'.symm.trans hm)
  exact absurd (hmap.toldApart hnamed hkeeps hpairs) (by decide +kernel)

end DroidPerf
