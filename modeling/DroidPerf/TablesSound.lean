import DroidPerf.DataBuilder

/-!
# DroidPerf.TablesSound

What the tables of a profile hold.

`Tables.Ok` is about strings, source files, functions and locations, `ContextTable.Ok` about
contexts. Each table only grows, so a reference that was good stays good. Nothing is assumed of
the hash: a record that is returned is that of some key with the hash of the one looked for,
and keys that collide make two locations one.

There is one lemma for each `add` function of the source (`addSouceFile_spec`,
`addFunction_spec`, `addLocation_spec`, `Ok.addContext`), each saying that the tables stay in
order and what the record that is returned stands for. `Grows` relates the tables before and
after. For contexts, the builder appends a message and adds it to the list of its parent, which
`attach` does in one go (`addContext_cases`).
-/

namespace DroidPerf

open Text Intern

namespace DataBuilder

variable {hash : List Char → Int}

/-! ### Strings

A table of strings is a list, and a string is referred to by its position. -/

/-- Every string is at its position, and the empty string is the first. -/
structure StringTable.Ok (t : StringTable) : Prop where
  zero : t[0]? = some ([], 0)
  entry : ∀ (i : Nat) (e : List Char × Nat), t[i]? = some e → e.2 = i

namespace StringTable

variable {t t' : StringTable} {s : List Char} {i : Nat}

/-- A string can always be added. -/
theorem exists_addString (t : StringTable) (s : List Char) :
    ∃ i t', t.addString s = some (i, t') := getOrAdd_of_fits _ _ _ _

/-- The strings that are there stay where they are. -/
theorem addString_isPrefix (h : t.addString s = some (i, t')) : t <+: t' := getOrAdd_isPrefix h

/-- A table with one more string stays in order. -/
theorem Ok.addString (ht : t.Ok) (h : t.addString s = some (i, t')) : t'.Ok where
  zero := getElem?_of_isPrefix (addString_isPrefix h) ht.zero
  entry := forall_getElem?_getOrAdd ht.entry rfl h

/-- The position is that of the string. -/
theorem Ok.getElem?_addString (ht : t.Ok) (h : t.addString s = some (i, t')) :
    t'[i]? = some (s, i) := by
  obtain ⟨k, hmem, hsame⟩ := getOrAdd_mem (by simp) h
  obtain rfl : k = s := of_decide_eq_true hsame
  obtain ⟨j, hj⟩ := List.getElem?_of_mem hmem
  have hpos := (ht.addString h).entry j _ hj
  rw [show i = j from hpos]
  rw [show i = j from hpos] at hj
  exact hj

/-- The position is one in the table. -/
theorem Ok.addString_lt (ht : t.Ok) (h : t.addString s = some (i, t')) : i < t'.length :=
  (List.getElem?_eq_some_iff.mp (ht.getElem?_addString h)).1

end StringTable

/-! ### The tables of locations

A location refers to a function, a function to its source file, and both to strings. All
records are made by a lookup with the hash of a key (`getOrAdd`). -/

namespace Tables

/-- What a function says of its key, and what it refers to. -/
structure FunctionOk (b : Tables) (key : FunctionTableKey) (f : Function) : Prop where
  name : f.name = key.name
  sourceFileId : f.sourceFileId = key.filePath
  name_lt : f.name < b.stringTable.length
  systemName_lt : f.systemName < b.stringTable.length
  file_mem : f.sourceFileId ∈ b.souceFileTable.map Prod.fst

/-- The records are at the positions their ids say, and refer to records that exist. -/
structure Ok (b : Tables) : Prop where
  strings : b.stringTable.Ok
  files : ∀ e ∈ b.souceFileTable, e.2 = ⟨e.1, e.1, e.1, 0⟩ ∧ e.1 < b.stringTable.length
  files_nodup : (b.souceFileTable.map Prod.fst).Nodup
  functions : ∀ (i : Nat) e, b.functionTable[i]? = some e → e.2.id = i ∧ b.FunctionOk e.1 e.2
  locations : ∀ (i : Nat) e, b.locationTable[i]? = some e →
    e.2 = ⟨i, [⟨e.1.functionId, e.1.lineNo⟩]⟩ ∧ e.1.functionId < b.functionTable.length

/-- Nothing is taken out of a table. -/
structure Grows (b b' : Tables) : Prop where
  strings : b.stringTable <+: b'.stringTable
  files : b.souceFileTable <+: b'.souceFileTable
  functions : b.functionTable <+: b'.functionTable
  locations : b.locationTable <+: b'.locationTable

/-- Tables have grown by nothing. -/
theorem Grows.refl (b : Tables) : b.Grows b :=
  ⟨List.prefix_refl _, List.prefix_refl _, List.prefix_refl _, List.prefix_refl _⟩

/-- Tables that have grown twice have grown. -/
theorem Grows.trans {b b₁ b₂ : Tables} (h : b.Grows b₁) (h' : b₁.Grows b₂) : b.Grows b₂ :=
  ⟨h.strings.trans h'.strings, h.files.trans h'.files, h.functions.trans h'.functions,
    h.locations.trans h'.locations⟩

variable {b b' : Tables} {s : List Char} {i : Nat} {strings : StringTable}

/-- A function stays in order when the tables grow. -/
theorem FunctionOk.mono {key : FunctionTableKey} {f : Function} (h : b.FunctionOk key f)
    (hgrows : b.Grows b') : b'.FunctionOk key f where
  name := h.name
  sourceFileId := h.sourceFileId
  name_lt := h.name_lt.trans_le hgrows.strings.length_le
  systemName_lt := h.systemName_lt.trans_le hgrows.strings.length_le
  file_mem := (hgrows.files.map _).subset h.file_mem

/-- All functions stay in order when the tables grow. -/
theorem Ok.functions_mono (hb : b.Ok) (hgrows : b.Grows b') (i : Nat)
    (e : FunctionTableKey × Function) (he : b.functionTable[i]? = some e) :
    e.2.id = i ∧ b'.FunctionOk e.1 e.2 :=
  ⟨(hb.functions i e he).1, (hb.functions i e he).2.mono hgrows⟩

/-- More strings do no harm. -/
theorem Ok.withStrings (hb : b.Ok) (hgrows : b.stringTable <+: strings) (hstrings : strings.Ok) :
    ({ b with stringTable := strings } : Tables).Ok := by
  have hg : b.Grows { b with stringTable := strings } :=
    ⟨hgrows, List.prefix_refl _, List.prefix_refl _, List.prefix_refl _⟩
  refine ⟨hstrings, fun e he => ?_, hb.files_nodup, hb.functions_mono hg, hb.locations⟩
  exact ⟨(hb.files e he).1, (hb.files e he).2.trans_le hgrows.length_le⟩

/-- A source file is known by the position of its path. -/
theorem addSouceFile_spec (hb : b.Ok) {filePath : List Char} {sourceFile : SourceFile}
    (h : b.addSouceFile filePath filePath 0 = some (sourceFile, b')) :
    b'.Ok ∧ b.Grows b' ∧ ∃ i, sourceFile = ⟨i, i, i, 0⟩ ∧ i ∈ b'.souceFileTable.map Prod.fst ∧
      b'.stringTable[i]? = some (filePath, i) ∧ b'.functionTable = b.functionTable ∧
      b'.locationTable = b.locationTable := by
  simp only [addSouceFile, Option.bind_eq_bind, Option.bind_eq_some_iff, Option.pure_def,
    Option.some.injEq, Prod.exists, Prod.mk.injEq] at h
  obtain ⟨i, strings, hi, j, strings', hj, file, files, hfile, rfl, rfl⟩ := h
  -- the path is looked up twice, and found the second time
  have hagain : strings.addString filePath = some (i, strings) := getOrAdd_again (by simp) hi
  rw [hagain] at hj
  cases hj
  have hget := hb.strings.getElem?_addString hi
  have hlt := (List.getElem?_eq_some_iff.mp hget).1
  have hstrings := hb.withStrings (StringTable.addString_isPrefix hi) (hb.strings.addString hi)
  have hfiles := getOrAdd_isPrefix hfile
  have hgrows : b.Grows { b with stringTable := strings, souceFileTable := files } :=
    ⟨StringTable.addString_isPrefix hi, hfiles, List.prefix_refl _, List.prefix_refl _⟩
  have hrecords := forall_getOrAdd hstrings.files (fun _ => ⟨rfl, hlt⟩) hfile
  obtain ⟨k, hmem, hsame⟩ := getOrAdd_mem (by simp) hfile
  obtain rfl : k = i := of_decide_eq_true hsame
  refine ⟨⟨hstrings.strings, hrecords, ?_, hb.functions_mono hgrows, hb.locations⟩, hgrows, k,
    (hrecords _ hmem).1, List.mem_map_of_mem hmem, hget, rfl, rfl⟩
  exact nodup_getOrAdd (by simp) hb.files_nodup hfile

/-- What `addFunction` did: the function is that of a key with the hash of the one looked
for. -/
structure FunctionAdded (hash : List Char → Int) (b b' : Tables) (filePath name : List Char)
    (key : FunctionTableKey) (function : Function) : Prop where
  ok : b'.Ok
  grows : b.Grows b'
  key_eq : b.functionKey filePath name = some key
  found : ∃ key', (key', function) ∈ b'.functionTable ∧ hash key'.str = hash key.str
  keys : ∀ e ∈ b'.functionTable, e ∈ b.functionTable ∨ e.1 = key
  locations : b'.locationTable = b.locationTable
  filePath_eq : b'.stringTable[key.filePath]? = some (filePath, key.filePath)
  name_eq : b'.stringTable[key.name]? = some (name, key.name)

/-- A function is known by the hash of its source file and its name. -/
theorem addFunction_spec (hb : b.Ok) {filePath name systemName : List Char} {startLine : Int}
    {function : Function}
    (h : b.addFunction hash filePath name systemName startLine = some (function, b')) :
    ∃ key, FunctionAdded hash b b' filePath name key function := by
  simp only [addFunction, Option.bind_eq_bind, Option.bind_eq_some_iff, Option.pure_def,
    Option.some.injEq, Prod.exists, Prod.mk.injEq] at h
  obtain ⟨file, b₁, hfile, j, strings, hj, l, strings', hl, function, functions, hfunction,
    rfl, rfl⟩ := h
  -- the tables after each of the four calls
  obtain ⟨hb₁, hgrows₁, i, rfl, hi, hgeti, hsame₁, hsame₂⟩ := addSouceFile_spec hb hfile
  have hok := hb₁.strings.addString hj
  have hprel := StringTable.addString_isPrefix hl
  have hpre := (StringTable.addString_isPrefix hj).trans hprel
  have hb₂ := hb₁.withStrings hpre (hok.addString hl)
  have hfunctions := getOrAdd_isPrefix hfunction
  have hgrows₂ : b₁.Grows { b₁ with stringTable := strings', functionTable := functions } :=
    ⟨hpre, List.prefix_refl _, hfunctions, List.prefix_refl _⟩
  obtain ⟨key', hmem, hsame⟩ := getOrAdd_mem (by simp [FunctionTableKey.eq]) hfunction
  refine ⟨⟨i, j⟩, ⟨hb₂.strings, hb₂.files, hb₂.files_nodup, ?_, fun n e he => ?_⟩,
    hgrows₁.trans hgrows₂, by simp [functionKey, hfile, hj],
    ⟨key', hmem, (of_decide_eq_true hsame).1⟩, ?_, hsame₂, ?_, ?_⟩
  · refine forall_getElem?_getOrAdd (hb₁.functions_mono hgrows₂) ⟨rfl, rfl, rfl, ?_, ?_, hi⟩
      hfunction
    · exact (hb₁.strings.addString_lt hj).trans_le hprel.length_le
    · exact hok.addString_lt hl
  · exact ⟨(hb₁.locations n e he).1, (hb₁.locations n e he).2.trans_le hfunctions.length_le⟩
  · exact forall_getOrAdd (fun e he => .inl (hsame₁ ▸ he)) (fun _ => .inr rfl) hfunction
  · exact getElem?_of_isPrefix hpre hgeti
  · exact getElem?_of_isPrefix hprel (hb₁.strings.getElem?_addString hj)

/-- The id of a function is a position in its table. -/
theorem FunctionAdded.id_lt {filePath name : List Char} {key : FunctionTableKey}
    {function : Function} (h : FunctionAdded hash b b' filePath name key function) :
    function.id < b'.functionTable.length := by
  obtain ⟨key', hmem, -⟩ := h.found
  obtain ⟨i, hi⟩ := List.getElem?_of_mem hmem
  rw [(h.ok.functions i _ hi).1]
  exact (List.getElem?_eq_some_iff.mp hi).1

/-- What `addLocation` did: it added a function, and the location is that of a key with the
hash of the one looked for. -/
structure LocationAdded (hash : List Char → Int) (b b₁ b' : Tables) (lineNo : Int)
    (function : Function) (location : Location) : Prop where
  ok : b'.Ok
  grows : b₁.Grows b'
  found : ∃ key', (key', location) ∈ b'.locationTable ∧
    hash key'.str = hash (LocationTableKey.str ⟨function.id, lineNo⟩)
  keys : ∀ e ∈ b'.locationTable, e ∈ b.locationTable ∨ e.1 = ⟨function.id, lineNo⟩
  functions : b'.functionTable = b₁.functionTable

/-- A location is known by the hash of its function and its line. -/
theorem addLocation_spec (hb : b.Ok) {filePath name systemName : List Char}
    {startLine lineNo : Int} {location : Location}
    (h : b.addLocation hash filePath name systemName startLine lineNo = some (location, b')) :
    ∃ key function b₁, FunctionAdded hash b b₁ filePath name key function ∧
      b.locationKey hash filePath name systemName startLine lineNo = some ⟨function.id, lineNo⟩ ∧
      LocationAdded hash b b₁ b' lineNo function location := by
  simp only [addLocation, Option.bind_eq_bind, Option.bind_eq_some_iff, Option.pure_def,
    Option.some.injEq, Prod.exists, Prod.mk.injEq] at h
  obtain ⟨function, b₁, hfunction, location, locations, hlocation, rfl, rfl⟩ := h
  obtain ⟨key, hadded⟩ := addFunction_spec hb hfunction
  have hb₁ := hadded.ok
  have hgrows : b₁.Grows { b₁ with locationTable := locations } :=
    ⟨List.prefix_refl _, List.prefix_refl _, List.prefix_refl _, getOrAdd_isPrefix hlocation⟩
  obtain ⟨key', hmem, hsame⟩ := getOrAdd_mem (by simp [LocationTableKey.eq]) hlocation
  refine ⟨key, function, b₁, hadded, by simp [locationKey, hfunction],
    ⟨hb₁.strings, hb₁.files, hb₁.files_nodup, hb₁.functions_mono hgrows, ?_⟩, hgrows,
    ⟨key', hmem, (of_decide_eq_true hsame).1⟩, ?_, rfl⟩
  · exact forall_getElem?_getOrAdd hb₁.locations ⟨rfl, hadded.id_lt⟩ hlocation
  · exact forall_getOrAdd (fun e he => .inl (hadded.locations ▸ he)) (fun _ => .inr rfl) hlocation

/-- The id of a location is a position in its table. -/
theorem LocationAdded.id_lt {b₁ : Tables} {lineNo : Int} {function : Function}
    {location : Location} (h : LocationAdded hash b b₁ b' lineNo function location) :
    location.id < b'.locationTable.length := by
  obtain ⟨key', hmem, -⟩ := h.found
  obtain ⟨i, hi⟩ := List.getElem?_of_mem hmem
  rw [show location.id = i from congrArg Location.id (h.ok.locations i _ hi).1]
  exact (List.getElem?_eq_some_iff.mp hi).1

/-- A location with numbers that fit can always be added. -/
theorem exists_addLocation (hash : List Char → Int) (b : Tables)
    (filePath name systemName : List Char)
    {startLine lineNo : Int} (hstart : fitsInt64 startLine = true)
    (hline : fitsInt64 lineNo = true) :
    ∃ location b', b.addLocation hash filePath name systemName startLine lineNo =
      some (location, b') := by
  obtain ⟨i, strings, hi⟩ := b.stringTable.exists_addString filePath
  obtain ⟨j, strings₁, hj⟩ := strings.exists_addString filePath
  obtain ⟨file, files, hfile⟩ : ∃ file files,
      b.souceFileTable.addSourceFile i j 0 = some (file, files) := getOrAdd_of_fits _ _ _ _
  obtain ⟨k, strings₂, hk⟩ := strings₁.exists_addString name
  obtain ⟨l, strings₃, hl⟩ := strings₂.exists_addString systemName
  obtain ⟨function, functions, hfunction⟩ : ∃ function functions,
      b.functionTable.addFunction hash file k l startLine = some (function, functions) := by
    rw [FunctionTable.addFunction, hstart]
    exact getOrAdd_of_fits _ _ _ _
  obtain ⟨location, locations, hlocation⟩ : ∃ location locations,
      b.locationTable.addLocation hash function lineNo = some (location, locations) := by
    rw [LocationTable.addLocation, hline]
    exact getOrAdd_of_fits _ _ _ _
  simp [addLocation, addFunction, addSouceFile, hi, hj, hfile, hk, hl, hfunction, hlocation]

end Tables

/-! ### Contexts

A context is found by its id, and added under a parent that is there already or under none. Its
message and the object around it are at the same position of two lists. -/

namespace ContextTable

/-- A `Context` object is at the position of its message, and its children have messages. -/
structure Wraps (t : ContextTable) : Prop where
  length : t.contexts.length = t.dcontexts.length
  context : ∀ (i : Nat) (c : Context), t.contexts[i]? = some c → c.dcontext = i
  childrenSet : ∀ c ∈ t.contexts, ∀ e ∈ c.childrenSet, e.1 ∈ t.dcontexts.map DContext.id

/-- Parents are older than their children, and list them. -/
structure Ok (t : ContextTable) (locations : Nat) : Prop extends t.Wraps where
  table : ∀ id i, (id, i) ∈ t.table ↔ ∃ d, t.dcontexts[i]? = some d ∧ d.id = id
  id_ne_zero : ∀ d ∈ t.dcontexts, d.id ≠ 0
  nodup : (t.dcontexts.map DContext.id).Nodup
  parent : ∀ (i : Nat) d, t.dcontexts[i]? = some d → d.parentId = 0 ∨
    ∃ j p, j < i ∧ t.dcontexts[j]? = some p ∧ p.id = d.parentId
  children_nodup : ∀ d ∈ t.dcontexts, d.childrenId.Nodup
  children : ∀ d ∈ t.dcontexts, ∀ id, id ∈ d.childrenId ↔
    ∃ c ∈ t.dcontexts, c.id = id ∧ c.parentId = d.id
  location : ∀ d ∈ t.dcontexts, d.locationId < locations

/-- A message whose children are those it had and one more. -/
def addChildId (parentId id : Nat) (d : DContext) : DContext :=
  if d.id = parentId then { d with childrenId := d.childrenId ++ [id] } else d

/-- A child leaves the id of its parent as it is. -/
@[simp] theorem addChildId_id (parentId id : Nat) (d : DContext) :
    (addChildId parentId id d).id = d.id := by
  unfold addChildId
  split <;> rfl

/-- A child leaves its parent where it is. -/
@[simp] theorem addChildId_parentId (parentId id : Nat) (d : DContext) :
    (addChildId parentId id d).parentId = d.parentId := by
  unfold addChildId
  split <;> rfl

/-- A child leaves the location of its parent as it is. -/
@[simp] theorem addChildId_locationId (parentId id : Nat) (d : DContext) :
    (addChildId parentId id d).locationId = d.locationId := by
  unfold addChildId
  split <;> rfl

/-- The messages with a new one, which its parent lists. -/
def attach (dcontexts : List DContext) (id locationId parentId : Nat) : List DContext :=
  dcontexts.map (addChildId parentId id) ++ [⟨id, locationId, parentId, []⟩]

variable {t t' : ContextTable} {locations contextId context : Nat} {location : Location}
  {parentContext : Option Nat}

/-- An id is at one position. -/
theorem pos_inj {dcontexts : List DContext} (hnodup : (dcontexts.map DContext.id).Nodup)
    {i j : Nat} {d e : DContext} (hi : dcontexts[i]? = some d) (hj : dcontexts[j]? = some e)
    (hid : d.id = e.id) : i = j := by
  have hlt := (List.getElem?_eq_some_iff.mp hi).1
  refine (List.getElem?_inj (by simpa using hlt) hnodup).mp ?_
  rw [List.getElem?_map, List.getElem?_map, hi, hj, Option.map_some, Option.map_some, hid]

/-- A message without a parent is listed by none. -/
theorem attach_zero {dcontexts : List DContext} (hne : ∀ d ∈ dcontexts, d.id ≠ 0)
    (id locationId : Nat) :
    attach dcontexts id locationId 0 = dcontexts ++ [⟨id, locationId, 0, []⟩] := by
  have hmap : dcontexts.map (addChildId 0 id) = dcontexts.map fun d => d :=
    List.map_congr_left fun d hd => if_neg (hne d hd)
  rw [attach, hmap, List.map_id']

/-- Its parent is found by its position. -/
theorem attach_modify {dcontexts : List DContext} (hnodup : (dcontexts.map DContext.id).Nodup)
    {p : Nat} {d : DContext} (hd : dcontexts[p]? = some d) (id locationId : Nat) :
    (dcontexts ++ [(⟨id, locationId, d.id, []⟩ : DContext)]).modify p
      (fun dcontext => { dcontext with childrenId := dcontext.childrenId ++ [id] }) =
    attach dcontexts id locationId d.id := by
  have hp := (List.getElem?_eq_some_iff.mp hd).1
  refine List.ext_getElem? fun i => ?_
  rw [List.getElem?_modify, attach]
  rcases Nat.lt_or_ge i dcontexts.length with hi | hi
  · rw [List.getElem?_append_left hi, List.getElem?_append_left (by simpa using hi),
      List.getElem?_map, List.getElem?_eq_getElem hi]
    -- ids are distinct: only the parent has the parent's id
    have hiff : p = i ↔ dcontexts[i].id = d.id := by
      constructor
      · rintro rfl
        rw [List.getElem?_eq_getElem hp] at hd
        rw [Option.some.inj hd]
      · intro heq
        exact pos_inj hnodup hd (List.getElem?_eq_getElem hi) heq.symm
    simp only [Option.map_eq_map, Option.map_some, addChildId, hiff]
  · have hne : p ≠ i := by omega
    rw [List.getElem?_append_right hi, List.getElem?_append_right (by simpa using hi)]
    simp [hne]

/-- A context that is found has its message at the position. -/
theorem Ok.mem_table (ht : t.Ok locations) (h : t.table.lookup contextId = some context) :
    ∃ d, t.dcontexts[context]? = some d ∧ d.id = contextId := by
  refine (ht.table contextId context).mp ?_
  obtain ⟨l₁, l₂, hsplit, -⟩ := List.lookup_eq_some_iff.mp h
  rw [hsplit]
  exact List.mem_append_right _ List.mem_cons_self

/-- A context that is not found has no message. -/
theorem Ok.notMem_table (ht : t.Ok locations) (h : t.table.lookup contextId = none) :
    contextId ∉ t.dcontexts.map DContext.id := by
  intro hmem
  obtain ⟨d, hd, hid⟩ := List.mem_map.mp hmem
  obtain ⟨i, hi⟩ := List.getElem?_of_mem hd
  have hentry := (ht.table contextId i).mpr ⟨d, hi, hid⟩
  have hfalse := List.lookup_eq_none_iff.mp h _ hentry
  simp at hfalse

/-- The id of the new message comes last. -/
@[simp] theorem map_id_attach (dcontexts : List DContext) (id locationId parentId : Nat) :
    (attach dcontexts id locationId parentId).map DContext.id = dcontexts.map DContext.id ++ [id] := by
  simp [attach, Function.comp_def]

/-- A `Context` object for a message that was added. -/
theorem Wraps.push (ht : t.Wraps) {dcontexts : List DContext}
    (hids : dcontexts.map DContext.id = t.dcontexts.map DContext.id ++ [contextId])
    (table : List (Nat × Nat)) :
    Wraps ⟨dcontexts, t.contexts ++ [⟨t.dcontexts.length, []⟩], table⟩ := by
  refine ⟨?_, fun i c hc => ?_, List.forall_mem_append.mpr ⟨fun c hc e he => ?_, ?_⟩⟩
  · have hlen := congrArg List.length hids
    simpa [ht.length] using hlen.symm
  · rcases getElem?_concat.mp hc with hc | ⟨rfl, rfl⟩
    · exact ht.context i c hc
    · exact ht.length.symm
  · rw [hids]
    exact List.mem_append_left _ (ht.childrenSet c hc e he)
  · simp

/-- An object that was given a child. -/
theorem Wraps.modify (ht : t.Wraps) (hid : contextId ∈ t.dcontexts.map DContext.id) (p k : Nat) :
    Wraps { t with contexts := t.contexts.modify p fun self =>
      { self with childrenSet := self.childrenSet ++ [(contextId, k)] } } := by
  have hold : ∀ (i : Nat) c, (t.contexts.modify p fun self =>
      { self with childrenSet := self.childrenSet ++ [(contextId, k)] })[i]? = some c →
      ∃ self, t.contexts[i]? = some self ∧ c.dcontext = self.dcontext ∧
        (c.childrenSet = self.childrenSet ∨
          c.childrenSet = self.childrenSet ++ [(contextId, k)]) := by
    intro i c hc
    rw [List.getElem?_modify, Option.map_eq_map, Option.map_eq_some_iff] at hc
    obtain ⟨self, hself, rfl⟩ := hc
    split
    · exact ⟨self, hself, rfl, .inr rfl⟩
    · exact ⟨self, hself, rfl, .inl rfl⟩
  refine ⟨by simp [ht.length], fun i c hc => ?_, fun c hc e he => ?_⟩
  · obtain ⟨self, hself, hsame, -⟩ := hold i c hc
    rw [hsame]
    exact ht.context i self hself
  · obtain ⟨i, hi⟩ := List.getElem?_of_mem hc
    obtain ⟨self, hself, -, hset⟩ := hold i c hi
    have hchildren := ht.childrenSet self (List.mem_of_getElem? hself)
    rcases hset with hset | hset
    · exact hchildren e (hset ▸ he)
    · rw [hset] at he
      rcases List.mem_append.mp he with he | he
      · exact hchildren e he
      · rw [List.mem_singleton.mp he]
        exact hid

/-- A child that is new is attached: no object has a child without a message. -/
theorem addChild_eq (ht : t.Ok locations) {p : Nat} {d : DContext} (hd : t.dcontexts[p]? = some d)
    (hfresh : contextId ∉ t.dcontexts.map DContext.id) (locationId : Nat) :
    addChild { t with dcontexts := t.dcontexts ++ [⟨contextId, locationId, d.id, []⟩] } p
        t.dcontexts.length =
      some (t.dcontexts.length,
        { t with
          dcontexts := attach t.dcontexts contextId locationId d.id
          contexts := (t.contexts ++ [(⟨t.dcontexts.length, []⟩ : Context)]).modify p fun self =>
            { self with childrenSet := self.childrenSet ++ [(contextId, t.dcontexts.length)] } }) := by
  have hp := (List.getElem?_eq_some_iff.mp hd).1
  obtain ⟨self, hself⟩ : ∃ self, t.contexts[p]? = some self :=
    ⟨_, List.getElem?_eq_getElem (ht.length ▸ hp)⟩
  have hpos := ht.context p self hself
  have hnone : self.childrenSet.lookup contextId = none := by
    refine List.lookup_eq_none_iff.mpr fun e he => ?_
    have hmem := ht.childrenSet self (List.mem_of_getElem? hself) e he
    simp only [bne_iff_ne, ne_eq]
    rintro rfl
    exact hfresh hmem
  simp only [addChild, hself, List.getElem?_concat_length, Option.bind_eq_bind, Option.bind_some, hnone, hpos,
    Option.pure_def, ht.length, attach_modify ht.nodup hd]

/-- The context that a new one is a child of, and its id. -/
def HasParent (t : ContextTable) (parentContext : Option Nat) (parentId : Nat) : Prop :=
  parentContext = none ∧ parentId = 0 ∨
    ∃ p d, parentContext = some p ∧ t.dcontexts[p]? = some d ∧ d.id = parentId

/-- The id of an object is that of the message at its position. -/
theorem Wraps.getId_eq (ht : t.Wraps) {p : Nat} {d : DContext} (hd : t.dcontexts[p]? = some d) :
    t.getId p = some d.id := by
  have hp := (List.getElem?_eq_some_iff.mp hd).1
  obtain ⟨self, hself⟩ : ∃ self, t.contexts[p]? = some self :=
    ⟨_, List.getElem?_eq_getElem (ht.length ▸ hp)⟩
  simp [getId, hself, ht.context p self hself, hd]

/-- An object that has an id has a message with this id. -/
theorem Wraps.getId_eq_some (ht : t.Wraps) {p id : Nat} (h : t.getId p = some id) :
    ∃ d, t.dcontexts[p]? = some d ∧ d.id = id := by
  simp only [getId, Option.bind_eq_bind, Option.bind_eq_some_iff, Option.pure_def,
    Option.some.injEq] at h
  obtain ⟨self, hself, d, hd, rfl⟩ := h
  rw [ht.context p self hself] at hd
  exact ⟨d, hd, rfl⟩

/-- What `addContext` can do: find a context, or attach one. -/
theorem addContext_cases (ht : t.Ok locations)
    (h : t.addContext contextId location parentContext = some (context, t')) :
    (t' = t ∧ ∃ d, t.dcontexts[context]? = some d ∧ d.id = contextId) ∨
    contextId ∉ t.dcontexts.map DContext.id ∧ context = t.dcontexts.length ∧ t'.Wraps ∧
      t'.table = t.table ++ [(contextId, t.dcontexts.length)] ∧
      ∃ parentId, t.HasParent parentContext parentId ∧
        t'.dcontexts = attach t.dcontexts contextId location.id parentId := by
  unfold addContext at h
  split at h
  · rename_i c hc
    cases h
    exact .inl ⟨rfl, ht.mem_table hc⟩
  · rename_i hnone
    have hfresh := ht.notMem_table hnone
    split at h
    · refine .inr ⟨hfresh, ?_⟩
      cases parentContext with
      | none =>
          cases h
          have hids : (t.dcontexts ++ [(⟨contextId, location.id, 0, []⟩ : DContext)]).map
              DContext.id =
              t.dcontexts.map DContext.id ++ [contextId] := List.map_append
          refine ⟨ht.length, ht.push hids _, by rw [ht.length], 0, .inl ⟨rfl, rfl⟩, ?_⟩
          exact (attach_zero ht.id_ne_zero _ _).symm
      | some p =>
          obtain ⟨parentId, hparent, h⟩ := Option.bind_eq_some_iff.mp h
          obtain ⟨d, hd, rfl⟩ := ht.getId_eq_some hparent
          simp only [addChild_eq ht hd hfresh, Option.bind_eq_bind, Option.bind_some,
            Option.pure_def] at h
          cases h
          have hids := map_id_attach t.dcontexts contextId location.id d.id
          have hmem : contextId ∈ (attach t.dcontexts contextId location.id d.id).map DContext.id :=
            hids ▸ List.mem_append_right _ List.mem_cons_self
          exact ⟨rfl, (ht.push hids _).modify hmem p _, rfl, d.id, .inr ⟨p, d, rfl, hd, rfl⟩, rfl⟩
    · cases h

/-- The same by position: old messages stay where they were, and the new one comes last. -/
theorem getElem?_attach {dcontexts : List DContext} {id locationId parentId i : Nat} {d : DContext} :
    (attach dcontexts id locationId parentId)[i]? = some d ↔
      (∃ d₀, dcontexts[i]? = some d₀ ∧ addChildId parentId id d₀ = d) ∨
        i = dcontexts.length ∧ d = ⟨id, locationId, parentId, []⟩ := by
  rw [attach, getElem?_concat, List.getElem?_map, Option.map_eq_some_iff, List.length_map]

/-- A message afterwards is an old one, perhaps with a child more, or the new one. -/
theorem mem_attach {dcontexts : List DContext} {id locationId parentId : Nat} {d : DContext} :
    d ∈ attach dcontexts id locationId parentId ↔
      (∃ d₀ ∈ dcontexts, addChildId parentId id d₀ = d) ∨ d = ⟨id, locationId, parentId, []⟩ := by
  simp [attach]

/-- The parent lists the child, and the others what they did. -/
theorem mem_addChildId {parentId id i : Nat} {d : DContext} :
    i ∈ (addChildId parentId id d).childrenId ↔
      i ∈ d.childrenId ∨ d.id = parentId ∧ i = id := by
  unfold addChildId
  split
  · rename_i heq
    simp [heq]
  · rename_i hne
    simp [hne]

/-- A new context is not its own parent. -/
theorem HasParent.ne {parentId : Nat} (h : t.HasParent parentContext parentId)
    (hzero : contextId ≠ 0) (hfresh : contextId ∉ t.dcontexts.map DContext.id) :
    parentId ≠ contextId := by
  rintro rfl
  rcases h with ⟨-, hzero'⟩ | ⟨p, d, -, hd, hid⟩
  · exact hzero hzero'
  · exact hfresh (hid ▸ List.mem_map_of_mem (List.mem_of_getElem? hd))

/-- No context is a child of one that does not exist. -/
theorem Ok.parent_ne (ht : t.Ok locations) (hzero : contextId ≠ 0)
    (hfresh : contextId ∉ t.dcontexts.map DContext.id) {d : DContext} (hd : d ∈ t.dcontexts) :
    d.parentId ≠ contextId := by
  rintro rfl
  obtain ⟨i, hi⟩ := List.getElem?_of_mem hd
  rcases ht.parent i d hi with hzero' | ⟨j, p, -, hp, hid⟩
  · exact hzero hzero'
  · exact hfresh (hid ▸ List.mem_map_of_mem (List.mem_of_getElem? hp))

section Attach

variable {locationId parentId : Nat}

/-- The ids of the messages stay different from each other. -/
theorem Ok.nodup_attach (ht : t.Ok locations) (hfresh : contextId ∉ t.dcontexts.map DContext.id) :
    ((attach t.dcontexts contextId locationId parentId).map DContext.id).Nodup := by
  rw [map_id_attach, List.nodup_append]
  refine ⟨ht.nodup, List.nodup_singleton _, fun id hid id' hid' heq => hfresh ?_⟩
  rw [← List.mem_singleton.mp hid', ← heq]
  exact hid

/-- Parents still come before their children. -/
theorem Ok.parent_attach (ht : t.Ok locations) (hparent : t.HasParent parentContext parentId)
    (i : Nat) (d : DContext)
    (hd : (attach t.dcontexts contextId locationId parentId)[i]? = some d) :
    d.parentId = 0 ∨ ∃ j p, j < i ∧
      (attach t.dcontexts contextId locationId parentId)[j]? = some p ∧ p.id = d.parentId := by
  obtain ⟨d₀, hd₀, rfl⟩ | ⟨rfl, rfl⟩ := getElem?_attach.mp hd
  · rw [addChildId_parentId]
    refine (ht.parent i d₀ hd₀).imp_right fun ⟨j, p, hj, hp, hid⟩ => ?_
    exact ⟨j, _, hj, getElem?_attach.mpr (.inl ⟨p, hp, rfl⟩), by rw [addChildId_id, hid]⟩
  · rcases hparent with ⟨-, hzero⟩ | ⟨p, d, -, hd, hid⟩
    · exact .inl hzero
    · refine .inr ⟨p, _, (List.getElem?_eq_some_iff.mp hd).1,
        getElem?_attach.mpr (.inl ⟨d, hd, rfl⟩), ?_⟩
      rw [addChildId_id, hid]

/-- No child is listed twice. -/
theorem Ok.children_nodup_attach (ht : t.Ok locations)
    (hfresh : contextId ∉ t.dcontexts.map DContext.id) (d : DContext)
    (hd : d ∈ attach t.dcontexts contextId locationId parentId) : d.childrenId.Nodup := by
  obtain ⟨d₀, hd₀, rfl⟩ | rfl := mem_attach.mp hd
  · unfold addChildId
    split
    · refine List.nodup_append.mpr ⟨ht.children_nodup d₀ hd₀, List.nodup_singleton _, ?_⟩
      -- the children it had are contexts, and the new one was none
      intro id hid id' hid' heq
      obtain ⟨c, hc, hcid, -⟩ := (ht.children d₀ hd₀ id).mp hid
      refine hfresh ?_
      rw [← List.mem_singleton.mp hid', ← heq, ← hcid]
      exact List.mem_map_of_mem hc
    · exact ht.children_nodup d₀ hd₀
  · exact List.nodup_nil

/-- The children that a message lists are the contexts with this parent. -/
theorem Ok.children_attach (ht : t.Ok locations) (hzero : contextId ≠ 0)
    (hfresh : contextId ∉ t.dcontexts.map DContext.id)
    (hparent : t.HasParent parentContext parentId) (d : DContext)
    (hd : d ∈ attach t.dcontexts contextId locationId parentId) (id : Nat) :
    id ∈ d.childrenId ↔ ∃ c ∈ attach t.dcontexts contextId locationId parentId,
      c.id = id ∧ c.parentId = d.id := by
  have hchild : (∃ c ∈ attach t.dcontexts contextId locationId parentId,
      c.id = id ∧ c.parentId = d.id) ↔
      (∃ c ∈ t.dcontexts, c.id = id ∧ c.parentId = d.id) ∨ contextId = id ∧ parentId = d.id := by
    simp only [mem_attach]
    constructor
    · rintro ⟨c, ⟨c₀, hc₀, rfl⟩ | rfl, hid, hpar⟩
      · exact .inl ⟨c₀, hc₀, by simpa using hid, by simpa using hpar⟩
      · exact .inr ⟨hid, hpar⟩
    · rintro (⟨c, hc, hid, hpar⟩ | ⟨hid, hpar⟩)
      · exact ⟨_, .inl ⟨c, hc, rfl⟩, by simpa using hid, by simpa using hpar⟩
      · exact ⟨_, .inr rfl, hid, hpar⟩
  rw [hchild]
  obtain ⟨d₀, hd₀, rfl⟩ | rfl := mem_attach.mp hd
  · rw [mem_addChildId, ht.children d₀ hd₀, addChildId_id]
    exact or_congr_right ⟨fun h => ⟨h.2.symm, h.1.symm⟩, fun h => ⟨h.2.symm, h.1.symm⟩⟩
  · -- nothing has the new context as its parent yet
    simp only [List.not_mem_nil, false_iff, not_or, not_exists, not_and]
    exact ⟨fun c hc _ => ht.parent_ne hzero hfresh hc, fun _ => hparent.ne hzero hfresh⟩

end Attach

/-- Adding a context keeps the table in order. -/
theorem Ok.addContext (ht : t.Ok locations) (hzero : contextId ≠ 0) {locations' : Nat}
    (hle : locations ≤ locations') (hloc : location.id < locations')
    (h : t.addContext contextId location parentContext = some (context, t')) :
    t'.Ok locations' := by
  obtain ⟨rfl, -⟩ | ⟨hfresh, -, hwraps, htable, parentId, hparent, hdcontexts⟩ :=
    addContext_cases ht h
  · exact { ht with location := fun d hd => (ht.location d hd).trans_le hle }
  · refine ⟨hwraps, fun id i => ?_, fun d hd => ?_, ?_, ?_, ?_, ?_, fun d hd => ?_⟩
    · rw [htable, hdcontexts, List.mem_append, ht.table, List.mem_singleton]
      simp only [getElem?_attach, Prod.mk.injEq]
      constructor
      · rintro (⟨d, hd, hid⟩ | ⟨rfl, rfl⟩)
        · exact ⟨_, .inl ⟨d, hd, rfl⟩, by simpa using hid⟩
        · exact ⟨_, .inr ⟨rfl, rfl⟩, rfl⟩
      · rintro ⟨d, ⟨d₀, hd₀, rfl⟩ | ⟨rfl, rfl⟩, hid⟩
        · exact .inl ⟨d₀, hd₀, by simpa using hid⟩
        · exact .inr ⟨hid.symm, rfl⟩
    · rw [hdcontexts, mem_attach] at hd
      obtain ⟨d₀, hd₀, rfl⟩ | rfl := hd
      · rw [addChildId_id]
        exact ht.id_ne_zero d₀ hd₀
      · exact hzero
    · exact hdcontexts ▸ ht.nodup_attach hfresh
    · exact hdcontexts ▸ ht.parent_attach hparent
    · exact hdcontexts ▸ ht.children_nodup_attach hfresh
    · exact hdcontexts ▸ ht.children_attach hzero hfresh hparent
    · rw [hdcontexts, mem_attach] at hd
      obtain ⟨d₀, hd₀, rfl⟩ | rfl := hd
      · rw [addChildId_locationId]
        exact (ht.location d₀ hd₀).trans_le hle
      · exact hloc

/-- The context that is returned is that with the id. -/
theorem Ok.getElem?_addContext (ht : t.Ok locations)
    (h : t.addContext contextId location parentContext = some (context, t')) :
    ∃ d, t'.dcontexts[context]? = some d ∧ d.id = contextId := by
  obtain ⟨rfl, hd⟩ | ⟨-, rfl, -, -, parentId, -, hdcontexts⟩ := addContext_cases ht h
  · exact hd
  · exact ⟨_, hdcontexts ▸ getElem?_attach.mpr (.inr ⟨rfl, rfl⟩), rfl⟩

/-- A context with an id that fits can always be added. -/
theorem Ok.exists_addContext (ht : t.Ok locations) (location : Location)
    (hfits : fitsUint64 contextId = true)
    (hparent : ∀ p, parentContext = some p → p < t.dcontexts.length) :
    ∃ context t', t.addContext contextId location parentContext = some (context, t') := by
  unfold ContextTable.addContext
  split
  · exact ⟨_, _, rfl⟩
  · rename_i hnone
    rw [if_pos hfits]
    cases parentContext with
    | none => exact ⟨_, _, rfl⟩
    | some p =>
        have hd := List.getElem?_eq_getElem (hparent p rfl)
        simp [ht.getId_eq hd, addChild_eq ht hd (ht.notMem_table hnone)]

end ContextTable

end DataBuilder

end DroidPerf
