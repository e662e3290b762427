import DroidPerf.ConversionSound
import DroidPerf.DocumentsSound

/-!
# DroidPerf.ConversionFilesSound

Which files the sections of a conversion read.

`ProfileDict.Is` relates the dictionary of the converter to the map that it stands for. When
the ids keep the threads apart, a section goes through the files of its kind, each with the
method file of the same thread (`exists_sectionFiles`); a file whose thread has no method file is
left out, if it is the only one of its thread.

The map is the abstract view: what is proved of it, that it pairs the files of each thread, is
used here, and only the order of the entries and the test on their number are left to the
dictionary. The order is some order of the files of the kind, so results are up to a
permutation.
-/

namespace DroidPerf

open Text

open DataBuilder

/-! ### The dictionary

Adding a file to the dictionary is adding it to the map. -/

/-- The dictionary has the entries of the map. -/
def ProfileDict.Is (d : ProfileDict) (m : List Char → List Char → Option (List Char)) : Prop :=
  ∀ tid kind, ((d.get? tid).bind fun files => files.get? kind) = m tid kind

namespace ProfileDict

variable {d : ProfileDict} {m : List Char → List Char → Option (List Char)}

/-- One more file of a thread is one more file in the dictionary. -/
theorem Is.addFile (h : d.Is m) {f : List Char} {m' : List Char → List Char → Option (List Char)}
    (hm : addProfile m f = some m') : ∃ d', d.addFile f = some d' ∧ d'.Is m' := by
  obtain ⟨⟨tid, kind⟩, hkey, hm⟩ := Option.bind_eq_some_iff.mp hm
  cases hm
  refine ⟨d.set tid (((d.get? tid).getD .empty).set kind f), ?_, fun tid' kind' => ?_⟩
  · simp [ProfileDict.addFile, hkey]
  rw [Dict.get?_set]
  by_cases htid : tid' = tid
  · subst htid
    rw [if_pos rfl, Option.bind_some, Dict.get?_set, Function.update_self]
    by_cases hkind : kind' = kind
    · rw [if_pos hkind, hkind, Function.update_self]
    · rw [if_neg hkind, Function.update_of_ne hkind, ← h tid' kind']
      cases d.get? tid' with
      | none => rfl
      | some files => rfl
  · rw [if_neg htid, Function.update_of_ne htid, h]

/-- The dictionary that the converter builds is the map of the same files. -/
theorem profileDict_is {filelist : List (List Char)} (hm : threadProfileMap filelist = some m) :
    ∃ d, profileDict filelist = some d ∧ d.Is m := by
  suffices hall : ∀ (d₀ : ProfileDict) m₀, d₀.Is m₀ → filelist.foldlM addProfile m₀ = some m →
      ∃ d, filelist.foldlM addFile d₀ = some d ∧ d.Is m from
    hall .empty _ (fun _ _ => rfl) hm
  clear hm
  induction filelist with
  | nil =>
      intro d₀ m₀ h₀ hm
      cases hm
      exact ⟨d₀, rfl, h₀⟩
  | cons f filelist ih =>
      intro d₀ m₀ h₀ hm
      obtain ⟨m₁, hadd, hm⟩ := Option.bind_eq_some_iff.mp hm
      obtain ⟨d₁, hd₁, h₁⟩ := h₀.addFile hadd
      obtain ⟨d', hd', h'⟩ := ih d₁ m₁ h₁ hm
      exact ⟨d', by simp [hd₁, hd'], h'⟩

/-- What a thread's entry holds. -/
theorem Is.files (h : d.Is m) {tid kind f : List Char} (hf : m tid kind = some f) :
    ∃ files, d.get? tid = some files ∧ ∀ kind', files.get? kind' = m tid kind' := by
  have hentry := h tid kind
  rw [hf, Option.bind_eq_some_iff] at hentry
  obtain ⟨files, hfiles, -⟩ := hentry
  refine ⟨files, hfiles, fun kind' => ?_⟩
  rw [← h tid kind', hfiles, Option.bind_some]

/-! ### The threads of a section

The ids in the list of a kind come from the entries, of which each has a kind at most once. -/

/-- In a list without duplicates an element is found once. -/
theorem filter_eq_singleton {A : Type} [DecidableEq A] {l : List A} (h : l.Nodup) {a : A}
    (ha : a ∈ l) : l.filter (fun b => b = a) = [a] := by
  induction l with
  | nil => cases ha
  | cons b l ih =>
      obtain ⟨hb, h⟩ := List.nodup_cons.mp h
      rcases List.mem_cons.mp ha with rfl | ha
      · have hrest : l.filter (fun b => b = a) = [] := by
          refine List.filter_eq_nil_iff.mpr fun c hc => ?_
          simpa using fun hca : c = a => hb (hca ▸ hc)
        simp [hrest]
      · have hne : b ≠ a := fun hba => hb (hba ▸ ha)
        simp [hne, ih h ha]

/-- A thread is in the list of a kind once, if it has a file of that kind. -/
theorem threadsOf_eq (d : ProfileDict) (kind : OutputKind) : d.threadsOf kind =
    (d.entries.filter fun entry => kind.name.toList ∈ entry.2.keys).map Prod.fst := by
  unfold threadsOf
  induction d.entries with
  | nil => rfl
  | cons entry entries ih =>
      rw [List.flatMap_cons, ih]
      by_cases hmem : kind.name.toList ∈ entry.2.keys
      · have hone : (entry.2.keys.filter fun content => content = kind.name.toList) =
            [kind.name.toList] := filter_eq_singleton entry.2.nodup hmem
        rw [hone]
        simp [hmem]
      · have hnone : (entry.2.keys.filter fun content => content = kind.name.toList) = [] := by
          refine List.filter_eq_nil_iff.mpr fun content hcontent => ?_
          simpa using fun heq : content = kind.name.toList => hmem (heq ▸ hcontent)
        rw [hnone]
        simp [hmem]

/-- No thread is in the list of a kind twice. -/
theorem nodup_threadsOf (d : ProfileDict) (kind : OutputKind) : (d.threadsOf kind).Nodup := by
  rw [threadsOf_eq]
  exact d.nodup.sublist (List.filter_sublist.map _)

/-- The threads in the list of a kind are those with a file of that kind. -/
theorem Is.mem_threadsOf (h : d.Is m) {kind : OutputKind} {tid : List Char} :
    tid ∈ d.threadsOf kind ↔ ∃ f, m tid kind.name.toList = some f := by
  rw [threadsOf_eq]
  simp only [List.mem_map, List.mem_filter, decide_eq_true_eq, Prod.exists, exists_and_right,
    exists_eq_right, Dict.mem_entries_iff, Dict.mem_keys, ← h tid, Option.bind_eq_some_iff]
  constructor
  · intro hmem
    obtain ⟨files, hfiles, f, hf⟩ := hmem
    exact ⟨f, files, hfiles, hf⟩
  · intro hmem
    obtain ⟨f, files, hfiles, hf⟩ := hmem
    exact ⟨files, hfiles, f, hf⟩

end ProfileDict

/-! ### The files of a directory

Here the map is that of a directory whose files are told apart by their ids. The number of
entries of a thread decides whether its file is read, so a file without a method file beside it
must be the only one of its thread. -/

/-- What a section reads for a file: the method file of its thread, and the file. -/
def filesOf (read : List Char → List Char) (files : List OutputFile) (file : OutputFile) :
    Option ThreadFiles :=
  (methodFile files file.writer).map fun method =>
    ⟨readLines (read method.name), readLines (read file.name)⟩

/-- A file that is not a method file has the method file of its thread beside it, or it is
alone. -/
def Accompanied (files : List OutputFile) : Prop :=
  ∀ file ∈ files, file.kind ≠ .method →
    (methodFile files file.writer).isSome ∨ ∀ other ∈ files, other.tid = file.tid → other = file

instance (files : List OutputFile) : Decidable (Accompanied files) :=
  inferInstanceAs (Decidable (∀ file ∈ files, file.kind ≠ .method →
    (methodFile files file.writer).isSome ∨ ∀ other ∈ files, other.tid = file.tid → other = file))

section Directory

variable {tid : Nat → Nat} {files : List OutputFile} {d : ProfileDict}
  {m : List Char → List Char → Option (List Char)} {read : List Char → List Char}

/-- The file is the entry of its thread and kind. -/
theorem MapOf.entry_apart (h : MapOf files m) (happart : ToldApart files) {file : OutputFile}
    (hfile : file ∈ files) : m (decimal file.tid) file.kind.name.toList = some file.name := by
  obtain ⟨other, hother, hm, htid, hkind⟩ := h.entry_eq hfile
  rw [hm, happart.1 other hother file hfile hkind htid]

/-- What the loop over the threads makes of the thread of a file. -/
theorem sectionFiles_cons (hnamed : Named tid files) (happart : ToldApart files)
    (haccompanied : Accompanied files) (hmap : MapOf files m) (hd : d.Is m) {file : OutputFile}
    (hfile : file ∈ files) (hkind : file.kind ≠ .method) (keys : List (List Char))
    {rest : List ThreadFiles} (hrest : d.sectionFiles read file.kind keys = some rest) :
    d.sectionFiles read file.kind (decimal file.tid :: keys) =
      some ((filesOf read files file).toList ++ rest) := by
  have hentry := hmap.entry_apart happart hfile
  obtain ⟨entry, hget, hkinds⟩ := hd.files hentry
  have hpair := hmap.pairsEvery hnamed happart file hfile hkind _ hentry
  rw [← hkinds] at hentry hpair
  rw [ProfileDict.sectionFiles, hget]
  cases hmethod : methodFile files file.writer with
  | some method =>
      rw [hmethod, Option.map_some] at hpair
      -- two kinds, so two entries
      have hlen : ¬ entry.entries.length < 2 := by
        have hsub : [OutputKind.method.name.toList, file.kind.name.toList] ⊆ entry.keys := by
          intro kind hmem
          rw [Dict.mem_keys]
          rcases List.mem_cons.mp hmem with rfl | hmem
          · exact ⟨_, hpair⟩
          · rw [List.mem_singleton.mp hmem]
            exact ⟨_, hentry⟩
        have hnodup : [OutputKind.method.name.toList, file.kind.name.toList].Nodup := by
          have hne : OutputKind.method.name.toList ≠ file.kind.name.toList :=
            fun heq => hkind (OutputKind.name_injective heq).symm
          simpa using hne
        have hle := (List.subperm_of_subset hnodup hsub).length_le
        have hkeys : entry.keys.length = entry.entries.length := List.length_map _
        rw [hkeys] at hle
        exact Nat.not_lt.mpr hle
      simp only [Option.bind_eq_bind, Option.bind_some, if_neg hlen, hpair, hentry, hrest, filesOf,
        hmethod, Option.map_some, Option.toList_some, Option.pure_def, List.singleton_append]
  | none =>
      have halone := (haccompanied file hfile hkind).resolve_left (by simp [hmethod])
      -- the file is alone, so there is one entry
      have hlen : entry.entries.length < 2 := by
        have hsub : entry.keys ⊆ [file.kind.name.toList] := by
          intro kind hmem
          obtain ⟨f, hf⟩ := Dict.mem_keys.mp hmem
          rw [hkinds] at hf
          obtain ⟨other, hother, -, htid, rfl⟩ := hmap.source _ _ _ hf
          have htid' : other.tid = file.tid := Int.ofNat_inj.mp (decimal_injective htid).symm
          rw [halone other hother htid']
          exact List.mem_singleton_self _
        have hle := (List.subperm_of_subset entry.nodup hsub).length_le
        have hkeys : entry.keys.length = entry.entries.length := List.length_map _
        rw [List.length_singleton] at hle
        rw [← hkeys]
        exact Nat.lt_succ_of_le hle
      simp only [Option.bind_eq_bind, Option.bind_some, if_pos hlen, hrest, filesOf, hmethod,
        Option.map_none, Option.toList_none, List.nil_append]

/-- The files of a list of threads, one after the other. -/
theorem sectionFiles_map (hnamed : Named tid files) (happart : ToldApart files)
    (haccompanied : Accompanied files) (hmap : MapOf files m) (hd : d.Is m) {kind : OutputKind}
    (hkind : kind ≠ .method) {l : List OutputFile} (hl : ∀ file ∈ l, file ∈ files)
    (hkinds : ∀ file ∈ l, file.kind = kind) :
    d.sectionFiles read kind (l.map fun file => decimal file.tid) =
      some (l.filterMap (filesOf read files)) := by
  induction l with
  | nil => rfl
  | cons file l ih =>
      rw [List.forall_mem_cons] at hl hkinds
      obtain ⟨rfl, hkinds⟩ := hkinds
      rw [List.map_cons, sectionFiles_cons hnamed happart haccompanied hmap hd hl.1 hkind _
        (ih hl.2 hkinds)]
      cases hfiles : filesOf read files file <;> simp [hfiles]

/-- A section goes through the threads of the files of its kind. -/
theorem threadsOf_perm (happart : ToldApart files) (hmap : MapOf files m) (hd : d.Is m)
    (hnodup : files.Nodup) (kind : OutputKind) : (d.threadsOf kind).Perm
      ((files.filter fun file => file.kind = kind).map fun file => decimal file.tid) := by
  refine (List.perm_ext_iff_of_nodup (d.nodup_threadsOf kind) ?_).mpr fun key => ?_
  · -- two files of one kind are of different threads
    refine (List.nodup_map_iff_inj_on (hnodup.filter _)).mpr fun file hfile other hother heq => ?_
    obtain ⟨hfile, hkind⟩ := List.mem_filter.mp hfile
    obtain ⟨hother, hkind'⟩ := List.mem_filter.mp hother
    rw [decide_eq_true_iff] at hkind hkind'
    exact happart.1 file hfile other hother (hkind.trans hkind'.symm)
      (Int.ofNat_inj.mp (decimal_injective heq))
  · rw [hd.mem_threadsOf]
    simp only [List.mem_map, List.mem_filter, decide_eq_true_eq]
    constructor
    · intro hentry
      obtain ⟨f, hf⟩ := hentry
      obtain ⟨file, hfile, -, rfl, hkind⟩ := hmap.source _ _ _ hf
      exact ⟨file, ⟨hfile, (OutputKind.name_injective hkind).symm⟩, rfl⟩
    · intro hfile
      obtain ⟨file, ⟨hfile, rfl⟩, rfl⟩ := hfile
      exact ⟨file.name, hmap.entry_apart happart hfile⟩

/-- A list that is a rearrangement of an image is the image of a rearrangement. -/
theorem exists_perm_map {A B : Type} {f : A → B} {l : List A} {l' : List B}
    (h : l'.Perm (l.map f)) : ∃ l₁ : List A, l₁.Perm l ∧ l' = l₁.map f := by
  have hmap : List.Forall₂ (fun b a => b = f a) (l.map f) l := by
    rw [List.forall₂_map_left_iff]
    exact List.forall₂_same.mpr fun _ _ => rfl
  obtain ⟨l₁, hall, hperm⟩ := List.perm_comp_forall₂ h hmap
  refine ⟨l₁, hperm, ?_⟩
  clear h hmap hperm
  induction hall with
  | nil => rfl
  | cons hhead _ ih => rw [hhead, ih, List.map_cons]

/-- The files that a section reads. -/
theorem exists_sectionFiles (hnamed : Named tid files) (happart : ToldApart files)
    (haccompanied : Accompanied files) (hmap : MapOf files m) (hd : d.Is m) {kind : OutputKind}
    (hkind : kind ≠ .method) (read : List Char → List Char) :
    ∃ order : List OutputFile, order.Perm (files.filter fun file => file.kind = kind) ∧
      d.sectionFiles read kind (d.threadsOf kind) = some (order.filterMap (filesOf read files)) := by
  have hnodup : files.Nodup := hnamed.nodup.of_map _
  obtain ⟨order, horder, hkeys⟩ := exists_perm_map (threadsOf_perm happart hmap hd hnodup kind)
  have hmem : ∀ file ∈ order, file ∈ files ∧ file.kind = kind := by
    intro file hfile
    simpa using horder.mem_iff.mp hfile
  refine ⟨order, horder, ?_⟩
  rw [hkeys]
  exact sectionFiles_map hnamed happart haccompanied hmap hd hkind (fun file h => (hmem file h).1)
    fun file h => (hmem file h).2

end Directory

end DroidPerf
