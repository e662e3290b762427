import Mathlib.Data.List.Perm.Subperm
import DroidPerf.DataBuilderSound

/-!
# DroidPerf.DecodeSound

A profile decodes to what the builder was given.

A context says what the first message with its id said: its predecessor, and the location of
that message (`Recorded`). A location can be resolved to what was asked for as long as no two
of the keys that are looked up have the same hash (`addLocation_resolves`); the keys are
compared by nothing else.

The history of a run, the messages each with the id of the one before, is carried through the
calls (`After.run`). If messages with the same id agree, a context says what all of them did,
and the way to the root along the parents gives back the messages of a sample (`callPath_eq`).
Decoding is then the reading of a profile record by record, by ids (`decode_run`).
-/

namespace DroidPerf

open Text Intern

namespace DataBuilder

/-! ### Reading a profile

What a reader of the profile does: it follows ids and positions, and gives up at one that leads
nowhere. -/

/-- What a context shows: the path of its file, its name, and its line. -/
abbrev Shown : Type := List Char × List Char × Int

/-- What a message shows. -/
def shown (msg : ContextMsg) : Shown := (msg.filePath, msg.name, msg.lineNo)

namespace Profile

/-- What a location shows, through its line, function and source file. -/
def resolve (p : Profile) (locationId : Nat) : Option Shown := do
  let location ← p.location.find? fun l => l.id = locationId
  let line ← location.line.head?
  let function ← p.function.find? fun f => f.id = line.functionId
  let sourceFile ← p.sourceFile.find? fun f => f.id = function.sourceFileId
  let filePath ← p.stringTable[sourceFile.locationPath]?
  let name ← p.stringTable[function.name]?
  return (filePath, name, line.line)

/-- What the contexts from the root to one show, following at most `fuel` parents. -/
def callPath (p : Profile) : Nat → Nat → Option (List Shown)
  | 0, _ => none
  | fuel + 1, contextId =>
    if contextId = 0 then some []
    else do
      let context ← p.context.find? fun c => c.id = contextId
      let path ← p.callPath fuel context.parentId
      let leaf ← p.resolve context.locationId
      return path ++ [leaf]

/-- A metric with its string. -/
def decodeMetric (p : Profile) (m : Metric) : Option MetricMsg := do
  let strValue ← p.stringTable[m.strValue]?
  return ⟨m.intValue, m.uintValue, strValue⟩

/-- The call path and the metrics of a sample. -/
def decodeSample (p : Profile) (s : Sample) : Option (List Shown × List MetricMsg) := do
  let path ← p.callPath (p.context.length + 1) s.contextId
  let metrics ← s.metric.mapM p.decodeMetric
  return (path, metrics)

end Profile

/-! ### The keys that are looked up

The strings that are hashed in a run depend on the state of the tables, so they are collected
along the run. The condition on collisions is about these strings and no others. -/

section Hashed

variable (hash : List Char → Int)

/-- The strings that are hashed to find the location of a message. -/
def Tables.hashed (b : Tables) (msg : ContextMsg) : List (List Char) :=
  (b.functionKey msg.filePath msg.name).toList.map FunctionTableKey.str ++
    (b.locationKey hash msg.filePath msg.name msg.systemName msg.startLine
      msg.lineNo).toList.map LocationTableKey.str

/-- Those of the messages of a sample. -/
def Builder.hashedContexts (b : Builder) (curContext : Option Nat) :
    List ContextMsg → List (List Char)
  | [] => []
  | msg :: contextMsgList =>
    b.toTables.hashed hash msg ++
      match b.addContextFromMsg hash msg curContext with
      | some (context, b) => b.hashedContexts (some context) contextMsgList
      | none => []

/-- Those of a run. -/
def Builder.hashedRun (b : Builder) : List Call → List (List Char)
  | [] => []
  | call :: calls =>
    b.hashedContexts hash none call.contextMsgs ++
      match b.step hash call with
      | some b => b.hashedRun calls
      | none => []

end Hashed

/-- No two of the strings have the same hash. -/
def NoCollision (hash : List Char → Int) (keys : List (List Char)) : Prop :=
  ∀ s ∈ keys, ∀ t ∈ keys, hash s = hash t → s = t

instance (hash : List Char → Int) (keys : List (List Char)) : Decidable (NoCollision hash keys) :=
  inferInstanceAs (Decidable (∀ s ∈ keys, ∀ t ∈ keys, hash s = hash t → s = t))

/-- A number has no semicolon. -/
theorem semicolon_notMem (i : Int) : ';' ∉ decimal i :=
  (numeric_decimal i).notMem (by decide) (by decide)

/-- The string of a key determines the key. -/
theorem FunctionTableKey.str_injective {a b : FunctionTableKey} (h : a.str = b.str) : a = b := by
  obtain ⟨hfile, -, hname⟩ := (List.append_cons_inj_of_notMem (semicolon_notMem _)
    (semicolon_notMem _)).mp h
  cases a
  cases b
  have hfile' := decimal_injective hfile
  have hname' := decimal_injective hname
  simp_all

/-- The same for the keys of locations. -/
theorem LocationTableKey.str_injective {a b : LocationTableKey} (h : a.str = b.str) : a = b := by
  obtain ⟨hfunction, -, hline⟩ := (List.append_cons_inj_of_notMem (semicolon_notMem _)
    (semicolon_notMem _)).mp h
  cases a
  cases b
  have hfunction' := decimal_injective hfunction
  have hline' := decimal_injective hline
  simp_all

variable {hash : List Char → Int}

/-! ### Locations

A location leads through its line to a function, to a source file and to strings. What it shows
stays as the tables grow. -/

namespace Tables

variable {b b' : Tables} {S : List (List Char)} {locationId : Nat} {s : Shown}

/-- What a location shows, by the keys of the tables. -/
def Resolves (b : Tables) (locationId : Nat) (s : Shown) : Prop :=
  ∃ key l fkey f, b.locationTable[locationId]? = some (key, l) ∧
    b.functionTable[key.functionId]? = some (fkey, f) ∧
    b.stringTable[fkey.filePath]? = some (s.1, fkey.filePath) ∧
    b.stringTable[fkey.name]? = some (s.2.1, fkey.name) ∧ key.lineNo = s.2.2

/-- What a context resolves to stays when the builder grows. -/
theorem Resolves.mono (h : b.Resolves locationId s) (hgrows : b.Grows b') :
    b'.Resolves locationId s := by
  obtain ⟨key, l, fkey, f, hlocation, hfunction, hfile, hname, hline⟩ := h
  exact ⟨key, l, fkey, f, getElem?_of_isPrefix hgrows.locations hlocation,
    getElem?_of_isPrefix hgrows.functions hfunction, getElem?_of_isPrefix hgrows.strings hfile,
    getElem?_of_isPrefix hgrows.strings hname, hline⟩

/-- All keys are among the strings that were looked up. -/
structure KeysIn (b : Tables) (S : List (List Char)) : Prop where
  functions : ∀ e ∈ b.functionTable, e.1.str ∈ S
  locations : ∀ e ∈ b.locationTable, e.1.str ∈ S

/-- Without collisions the location is the one asked for. -/
theorem addLocation_resolves (hb : b.Ok) (hS : NoCollision hash S) (hin : b.KeysIn S)
    {msg : ContextMsg} (hkeys : ∀ s ∈ b.hashed hash msg, s ∈ S) {location : Location}
    (h : b.addLocation hash msg.filePath msg.name msg.systemName msg.startLine msg.lineNo =
      some (location, b')) :
    b'.KeysIn S ∧ b'.Resolves location.id (shown msg) := by
  obtain ⟨key, function, b₁, hadded, hlkey, hlocated⟩ := addLocation_spec hb h
  rw [hashed, hadded.key_eq, hlkey] at hkeys
  have hkey : key.str ∈ S := hkeys _ (by simp)
  have hlkey : LocationTableKey.str ⟨function.id, msg.lineNo⟩ ∈ S := hkeys _ (by simp)
  -- the keys of the tables are old ones, or the two that were looked up
  have hin' : b'.KeysIn S := by
    constructor
    · intro e he
      rcases hadded.keys e (hlocated.functions ▸ he) with hold | hnew
      · exact hin.functions e hold
      · exact hnew ▸ hkey
    · intro e he
      rcases hlocated.keys e he with hold | hnew
      · exact hin.locations e hold
      · exact hnew ▸ hlkey
  -- the hashes are equal, so the strings are, so the keys are
  obtain ⟨key', hmem, hhash⟩ := hadded.found
  obtain ⟨i, hi⟩ := List.getElem?_of_mem hmem
  have hi' := getElem?_of_isPrefix hlocated.grows.functions hi
  have hfid := (hadded.ok.functions i _ hi).1
  have hkey' := hin'.functions _ (List.mem_of_getElem? hi')
  obtain rfl := FunctionTableKey.str_injective (hS _ hkey' _ hkey hhash)
  obtain ⟨lkey', hlmem, hlhash⟩ := hlocated.found
  obtain ⟨j, hj⟩ := List.getElem?_of_mem hlmem
  obtain rfl := LocationTableKey.str_injective (hS _ (hin'.locations _ hlmem) _ hlkey hlhash)
  have hlid : location.id = j := congrArg Location.id (hlocated.ok.locations j _ hj).1
  refine ⟨hin', ⟨function.id, msg.lineNo⟩, location, key', function, hlid ▸ hj, hfid ▸ hi', ?_, ?_,
    rfl⟩
  · exact getElem?_of_isPrefix hlocated.grows.strings hadded.filePath_eq
  · exact getElem?_of_isPrefix hlocated.grows.strings hadded.name_eq

end Tables

/-- A record is found by its id. -/
theorem find?_id {R : Type} {l : List R} {id : R → Nat} (hnodup : (l.map id).Nodup) {r : R}
    (hr : r ∈ l) {i : Nat} (hid : id r = i) : l.find? (fun r => id r = i) = some r := by
  obtain ⟨r', hr'⟩ : ∃ r', l.find? (fun r => id r = i) = some r' :=
    Option.isSome_iff_exists.mp (List.find?_isSome.mpr ⟨r, hr, by simpa using hid⟩)
  have hid' : id r' = i := by simpa using List.find?_some hr'
  rw [hr', List.inj_on_of_nodup_map hnodup (List.mem_of_find?_eq_some hr') hr (hid'.trans hid.symm)]

/-- What a location resolves to in the tables is what a reader of the profile finds. -/
theorem Builder.Ok.resolve_eq {b : Builder} (hb : b.Ok) {locationId : Nat} {s : Shown}
    (h : b.toTables.Resolves locationId s) : b.profile.resolve locationId = some s := by
  obtain ⟨key, l, fkey, f, hlocation, hfunction, hfile, hname, hline⟩ := h
  have hintact := hb.intact
  have hleq := (hb.tables.locations _ _ hlocation).1
  obtain ⟨hfid, hfok⟩ := hb.tables.functions _ _ hfunction
  obtain ⟨e, he, heid⟩ := List.mem_map.mp hfok.file_mem
  have hseq := (hb.tables.files e he).1
  have hl : b.profile.location.find? (fun l => l.id = locationId) = some l :=
    find?_id hintact.location_nodup (List.mem_map_of_mem (List.mem_of_getElem? hlocation))
      (congrArg Location.id hleq)
  have hf : b.profile.function.find? (fun f => f.id = key.functionId) = some f :=
    find?_id hintact.function_nodup (List.mem_map_of_mem (List.mem_of_getElem? hfunction)) hfid
  have hs : b.profile.sourceFile.find? (fun s => s.id = f.sourceFileId) = some e.2 :=
    find?_id hintact.sourceFile_nodup (List.mem_map_of_mem he)
      ((congrArg SourceFile.id hseq).trans heid)
  have hpath : b.profile.stringTable[e.2.locationPath]? = some s.1 := by
    rw [congrArg SourceFile.locationPath hseq, heid, hfok.sourceFileId, profile, List.getElem?_map,
      hfile, Option.map_some]
  have hstring : b.profile.stringTable[f.name]? = some s.2.1 := by
    rw [hfok.name, profile, List.getElem?_map, hname, Option.map_some]
  have hhead : l.line.head? = some ⟨key.functionId, s.2.2⟩ := by
    rw [congrArg Location.line hleq, ← hline, List.head?_cons]
  simp [Profile.resolve, hl, hhead, hf, hs, hpath, hstring]

/-! ### Contexts

A context is made for the first message with its id and never changed, apart from its children.
So the table of contexts is described by the first messages of the history. -/

/-- The messages of a sample, each with the id of the one before it. -/
def withPred (pred : Option Nat) : List ContextMsg → List (Option Nat × ContextMsg)
  | [] => []
  | msg :: contextMsgList => (pred, msg) :: withPred (some msg.contextId) contextMsgList

/-- The first message with an id. -/
def firstMsg (H : List (Option Nat × ContextMsg)) (contextId : Nat) :
    Option (Option Nat × ContextMsg) := H.find? fun m => m.2.contextId = contextId

namespace Builder

variable {b b' : Builder} {H : List (Option Nat × ContextMsg)} {S : List (List Char)}
  {pred : Option Nat} {msg : ContextMsg} {curContext : Option Nat} {context : Nat}

/-- The contexts are those of the messages, and a context says what the first message with
its id did. -/
structure Recorded (b : Builder) (H : List (Option Nat × ContextMsg)) : Prop where
  first : ∀ m ∈ H, firstMsg H m.2.contextId = some m → ∃ d ∈ b.contextTable.dcontexts,
    d.id = m.2.contextId ∧ d.parentId = m.1.getD 0 ∧ b.toTables.Resolves d.locationId (shown m.2)
  only : ∀ d ∈ b.contextTable.dcontexts, ∃ m ∈ H, m.2.contextId = d.id

/-- The loop of `addSample` is at the context with the id `pred`. -/
structure At (b : Builder) (curContext pred : Option Nat) : Prop where
  isContext : b.IsContext curContext
  pred_eq : pred = curContext.bind fun c => (b.contextTable.dcontexts.map DContext.id)[c]?

/-- The parent of a new context is that of the message before. -/
theorem At.parentId_eq (h : b.At curContext pred) {parentId : Nat}
    (hparent : b.contextTable.HasParent curContext parentId) : parentId = pred.getD 0 := by
  rw [h.pred_eq]
  obtain ⟨rfl, rfl⟩ | ⟨p, d, rfl, hd, rfl⟩ := hparent
  · rfl
  · simp [hd]

/-- A later message is the first with its id if there was none before. -/
theorem firstMsg_append {H : List (Option Nat × ContextMsg)} {m : Option Nat × ContextMsg}
    {contextId : Nat} : firstMsg (H ++ [m]) contextId =
      (firstMsg H contextId).or (if m.2.contextId = contextId then some m else none) := by
  rw [firstMsg, List.find?_append]
  congr 1
  simp [List.find?_cons]
  split <;> simp_all

/-- There is no first message if there is none. -/
theorem firstMsg_eq_none {H : List (Option Nat × ContextMsg)} {contextId : Nat} :
    firstMsg H contextId = none ↔ ∀ m ∈ H, m.2.contextId ≠ contextId := by
  simp [firstMsg]

/-- The first message is one of the messages and has the id. -/
theorem firstMsg_eq_some {H : List (Option Nat × ContextMsg)} {contextId : Nat}
    {m : Option Nat × ContextMsg} (h : firstMsg H contextId = some m) :
    m ∈ H ∧ m.2.contextId = contextId :=
  ⟨List.mem_of_find?_eq_some h, by simpa using List.find?_some h⟩

/-- A message whose id is known changes nothing. -/
theorem Recorded.known (hrec : b.Recorded H) (hgrows : b.toTables.Grows b'.toTables)
    (hsame : b'.contextTable = b.contextTable)
    (hknown : msg.contextId ∈ b.contextTable.dcontexts.map DContext.id) :
    b'.Recorded (H ++ [(pred, msg)]) := by
  obtain ⟨d, hd, hid⟩ := List.mem_map.mp hknown
  obtain ⟨m₀, hm₀, hid₀⟩ := hrec.only d hd
  refine ⟨fun m hm hfirst => ?_, fun d hd => ?_⟩
  · rw [firstMsg_append] at hfirst
    obtain ⟨m', hm'⟩ : ∃ m', firstMsg H m.2.contextId = some m' := by
      refine Option.isSome_iff_exists.mp (List.find?_isSome.mpr ?_)
      -- in either case there was a message with the id before
      rcases List.mem_append.mp hm with hm | hm
      · exact ⟨m, hm, by simp⟩
      · rw [List.mem_singleton.mp hm]
        exact ⟨m₀, hm₀, by simp [hid₀, hid]⟩
    rw [hm', Option.some_or] at hfirst
    obtain rfl := Option.some.inj hfirst
    obtain ⟨d, hd, hdid, hparent, hresolves⟩ := hrec.first m' (firstMsg_eq_some hm').1 hm'
    exact ⟨d, hsame ▸ hd, hdid, hparent, hresolves.mono hgrows⟩
  · obtain ⟨m, hm, hmid⟩ := hrec.only d (hsame ▸ hd)
    exact ⟨m, List.mem_append_left _ hm, hmid⟩

/-- A message with a new id is the first with it. -/
theorem Recorded.attach (hrec : b.Recorded H) (hgrows : b.toTables.Grows b'.toTables)
    {locationId : Nat} (hresolves : b'.toTables.Resolves locationId (shown msg))
    (hdcontexts : b'.contextTable.dcontexts =
      ContextTable.attach b.contextTable.dcontexts msg.contextId locationId (pred.getD 0)) :
    b'.Recorded (H ++ [(pred, msg)]) := by
  refine ⟨fun m hm hfirst => ?_, fun d hd => ?_⟩
  · rw [firstMsg_append] at hfirst
    cases hold : firstMsg H m.2.contextId with
    | some m' =>
        rw [hold, Option.some_or] at hfirst
        obtain rfl := Option.some.inj hfirst
        obtain ⟨d, hd, hid, hparent, hr⟩ := hrec.first m' (firstMsg_eq_some hold).1 hold
        refine ⟨_, hdcontexts ▸ ContextTable.mem_attach.mpr (.inl ⟨d, hd, rfl⟩), ?_⟩
        simpa using ⟨hid, hparent, hr.mono hgrows⟩
    | none =>
        -- the new message is the first with its id
        rcases List.mem_append.mp hm with hm | hm
        · exact absurd rfl (firstMsg_eq_none.mp hold m hm)
        · rw [List.mem_singleton.mp hm]
          exact ⟨_, hdcontexts ▸ ContextTable.mem_attach.mpr (.inr rfl), rfl, rfl, hresolves⟩
  · rw [hdcontexts] at hd
    obtain ⟨d₀, hd₀, rfl⟩ | rfl := ContextTable.mem_attach.mp hd
    · obtain ⟨m, hm, hid⟩ := hrec.only d₀ hd₀
      exact ⟨m, List.mem_append_left _ hm, by simpa using hid⟩
    · exact ⟨_, List.mem_append_right _ List.mem_cons_self, rfl⟩

/-- What adding the context of a message records. -/
theorem addContextFromMsg_recorded (hb : b.Ok) (hrec : b.Recorded H) (hat : b.At curContext pred)
    (hS : NoCollision hash S) (hin : b.KeysIn S)
    (hkeys : ∀ s ∈ b.toTables.hashed hash msg, s ∈ S)
    (h : b.addContextFromMsg hash msg curContext = some (context, b')) :
    b'.Recorded (H ++ [(pred, msg)]) ∧ b'.At (some context) (some msg.contextId) ∧
      b'.KeysIn S := by
  simp only [addContextFromMsg, Option.bind_eq_bind, Option.bind_eq_some_iff, Option.pure_def,
    Option.some.injEq, Prod.exists, Prod.mk.injEq] at h
  obtain ⟨location, tables, hlocation, context, contexts, hcontext, rfl, rfl⟩ := h
  obtain ⟨_, _, _, hadded, -, hlocated⟩ := Tables.addLocation_spec hb.tables hlocation
  have hgrows := hadded.grows.trans hlocated.grows
  obtain ⟨hin', hresolves⟩ := Tables.addLocation_resolves hb.tables hS hin hkeys hlocation
  obtain ⟨d, hd, hid⟩ := hb.contexts.getElem?_addContext hcontext
  refine ⟨?_, ⟨?_, ?_⟩, hin'⟩
  · -- the context was there, or it is new
    obtain ⟨rfl, d, hd, hid⟩ | ⟨-, -, -, -, parentId, hparent, hdcontexts⟩ :=
      ContextTable.addContext_cases hb.contexts hcontext
    · exact hrec.known hgrows rfl (hid ▸ List.mem_map_of_mem (List.mem_of_getElem? hd))
    · rw [hat.parentId_eq hparent] at hdcontexts
      exact hrec.attach hgrows hresolves hdcontexts
  · intro c hc
    rw [← Option.some.inj hc]
    exact (List.getElem?_eq_some_iff.mp hd).1
  · simp [hd, hid]

/-- The context of the last message. -/
def leaf (pred : Option Nat) (contextMsgList : List ContextMsg) : Option Nat :=
  (contextMsgList.getLast?.map ContextMsg.contextId).or pred

/-- The context of the last message of several. -/
theorem leaf_cons (pred : Option Nat) (msg : ContextMsg) (contextMsgList : List ContextMsg) :
    leaf pred (msg :: contextMsgList) = leaf (some msg.contextId) contextMsgList := by
  cases hlast : contextMsgList.getLast? <;> simp [leaf, List.getLast?_cons, hlast]

/-- The loop over the messages of a sample records them all. -/
theorem addContexts_recorded {contextMsgList : List ContextMsg} {curContext' : Option Nat}
    (hb : b.Ok) (hrec : b.Recorded H) (hat : b.At curContext pred) (hS : NoCollision hash S)
    (hin : b.KeysIn S) (hzero : ∀ msg ∈ contextMsgList, msg.contextId ≠ 0)
    (hkeys : ∀ s ∈ b.hashedContexts hash curContext contextMsgList, s ∈ S)
    (h : b.addContexts hash curContext contextMsgList = some (curContext', b')) :
    b'.Recorded (H ++ withPred pred contextMsgList) ∧ b'.At curContext' (leaf pred contextMsgList) ∧
      b'.KeysIn S := by
  induction contextMsgList generalizing b H curContext pred with
  | nil =>
      cases h
      rw [withPred, List.append_nil]
      exact ⟨hrec, hat, hin⟩
  | cons msg contextMsgList ih =>
      obtain ⟨⟨context, b₁⟩, hmsg, h⟩ := Option.bind_eq_some_iff.mp h
      rw [List.forall_mem_cons] at hzero
      rw [hashedContexts, hmsg, List.forall_mem_append] at hkeys
      obtain ⟨hb₁, -, -⟩ := addContextFromMsg_spec hb hzero.1 hmsg
      obtain ⟨hrec₁, hat₁, hin₁⟩ := addContextFromMsg_recorded hb hrec hat hS hin hkeys.1 hmsg
      obtain ⟨hrec', hat', hin'⟩ := ih hb₁ hrec₁ hat₁ hin₁ hzero.2 hkeys.2 h
      refine ⟨?_, ?_, hin'⟩
      · rw [List.append_assoc] at hrec'
        exact hrec'
      · rw [leaf_cons]
        exact hat'

end Builder

/-! ### Samples

The samples of the builder are those of the calls, each with the id of its leaf and its
metrics. -/

/-- A metric is that of a message. -/
def Metric.Is (strings : StringTable) (m : Metric) (msg : MetricMsg) : Prop :=
  m.intValue = msg.intValue ∧ m.uintValue = msg.uintValue ∧
    strings[m.strValue]? = some (msg.strValue, m.strValue)

/-- A sample is that of a leaf and its metrics. -/
def Sample.Is (strings : StringTable) (s : Sample) (e : Nat × List MetricMsg) : Prop :=
  s.contextId = e.1 ∧ List.Forall₂ (Metric.Is strings) s.metric e.2

/-- A metric stays what it is when strings are added. -/
theorem Metric.Is.mono {strings strings' : StringTable} (hpre : strings <+: strings') {m : Metric}
    {msg : MetricMsg} (h : m.Is strings msg) : m.Is strings' msg :=
  ⟨h.1, h.2.1, getElem?_of_isPrefix hpre h.2.2⟩

/-- A sample stays what it is when strings are added. -/
theorem Sample.Is.mono {strings strings' : StringTable} (hpre : strings <+: strings') {s : Sample}
    {e : Nat × List MetricMsg} (h : s.Is strings e) : s.Is strings' e :=
  ⟨h.1, h.2.imp fun _ _ hm => hm.mono hpre⟩

/-- The leaf and the metrics of the sample that a call adds. -/
def Call.sample : Call → List (Nat × List MetricMsg)
  | .addMetricType _ _ _ => []
  | .addSample contextMsgList metricList =>
    (contextMsgList.getLast?.map fun msg => (msg.contextId, metricList)).toList

/-- The messages of calls, each with the id of the one before it. -/
def history (calls : List Call) : List (Option Nat × ContextMsg) :=
  calls.flatMap fun call => withPred none call.contextMsgs

namespace Builder

variable {b b' : Builder} {H : List (Option Nat × ContextMsg)} {S : List (List Char)}

/-- The loop over the metrics of a sample stores them all. -/
theorem addMetrics_recorded {metricList done : List MetricMsg} {strings strings' : StringTable}
    {metric metric' : List Metric} (hstrings : strings.Ok)
    (hmetric : List.Forall₂ (Metric.Is strings) metric done)
    (h : addMetrics strings metric metricList = some (metric', strings')) :
    List.Forall₂ (Metric.Is strings') metric' (done ++ metricList) := by
  induction metricList generalizing strings metric done with
  | nil =>
      cases h
      rw [List.append_nil]
      exact hmetric
  | cons msg metricList ih =>
      unfold addMetrics at h
      split at h
      · obtain ⟨⟨i, strings₁⟩, hi, h⟩ := Option.bind_eq_some_iff.mp h
        have hpre := StringTable.addString_isPrefix hi
        have hnew : Metric.Is strings₁ ⟨msg.intValue, msg.uintValue, i⟩ msg :=
          ⟨rfl, rfl, hstrings.getElem?_addString hi⟩
        have hmetric₁ := List.rel_append (hmetric.imp fun _ _ hm => hm.mono hpre)
          (List.Forall₂.cons hnew .nil)
        have hrest := ih (hstrings.addString hi) hmetric₁ h
        rw [List.append_assoc] at hrest
        exact hrest
      · cases h

/-- What is known of a builder after calls. -/
structure After (b : Builder) (S : List (List Char)) (H : List (Option Nat × ContextMsg))
    (samples : List (Nat × List MetricMsg)) : Prop where
  ok : b.Ok
  recorded : b.Recorded H
  keysIn : b.KeysIn S
  sample : List.Forall₂ (Sample.Is b.stringTable) b.sample samples

variable {samples : List (Nat × List MetricMsg)}

/-- A new builder is after no calls. -/
theorem after_new : new.After S [] [] where
  ok := ok_new
  recorded := ⟨by simp, by simp [new]⟩
  keysIn := ⟨by simp [new], by simp [new]⟩
  sample := .nil

/-- More strings do no harm. -/
theorem Recorded.withStrings (hrec : b.Recorded H) (htables : b.toTables.Grows b'.toTables)
    (hsame : b'.contextTable = b.contextTable) : b'.Recorded H := by
  refine ⟨fun m hm hfirst => ?_, fun d hd => hrec.only d (hsame ▸ hd)⟩
  obtain ⟨d, hd, hid, hparent, hresolves⟩ := hrec.first m hm hfirst
  exact ⟨d, hsame ▸ hd, hid, hparent, hresolves.mono htables⟩

/-- Metric types have no messages. -/
theorem After.addMetricType (hb : b.After S H samples) {valueType : Int} {unit des : List Char}
    (h : b.addMetricType valueType unit des = some b') : b'.After S H samples := by
  have hok := hb.ok.addMetricType h
  obtain ⟨i, j, strings, strings', hi, hj, rfl⟩ := addMetricType_cases h
  have hpre := (StringTable.addString_isPrefix hi).trans (StringTable.addString_isPrefix hj)
  exact ⟨hok, hb.recorded.withStrings ⟨hpre, List.prefix_refl _, List.prefix_refl _,
    List.prefix_refl _⟩ rfl, ⟨hb.keysIn.functions, hb.keysIn.locations⟩,
    hb.sample.imp fun _ _ hs => hs.mono hpre⟩

/-- Adding contexts adds no samples. -/
theorem addContexts_sample {contextMsgList : List ContextMsg} {curContext curContext' : Option Nat}
    (h : b.addContexts hash curContext contextMsgList = some (curContext', b')) :
    b'.sample = b.sample := by
  induction contextMsgList generalizing b curContext with
  | nil =>
      cases h
      rfl
  | cons msg contextMsgList ih =>
      obtain ⟨⟨context, b₁⟩, hmsg, h⟩ := Option.bind_eq_some_iff.mp h
      simp only [addContextFromMsg, Option.bind_eq_bind, Option.bind_eq_some_iff, Option.pure_def,
        Option.some.injEq, Prod.exists, Prod.mk.injEq] at hmsg
      obtain ⟨location, tables, -, context, contexts, -, rfl, rfl⟩ := hmsg
      have hsame := ih h
      exact hsame

/-- A sample is appended if there is a leaf. -/
theorem After.addSample (hb : b.After S H samples) (hS : NoCollision hash S)
    {contextMsgList : List ContextMsg} {metricList : List MetricMsg}
    (hzero : ∀ msg ∈ contextMsgList, msg.contextId ≠ 0)
    (hkeys : ∀ s ∈ b.hashedContexts hash none contextMsgList, s ∈ S)
    (h : b.addSample hash contextMsgList metricList = some b') :
    b'.After S (H ++ withPred none contextMsgList)
      (samples ++ (Call.addSample contextMsgList metricList).sample) := by
  have hok := hb.ok.addSample hzero h
  have hat : b.At none none := ⟨b.isContext_none, rfl⟩
  obtain hcontexts | ⟨context, b₁, contextId, metric, strings, hcontexts, hid, hmetrics, rfl⟩ :=
    addSample_cases h
  · obtain ⟨hrec, hat', hin⟩ :=
      addContexts_recorded hb.ok hb.recorded hat hS hb.keysIn hzero hkeys hcontexts
    obtain ⟨-, hgrows, -⟩ := addContexts_spec hb.ok b.isContext_none hzero hcontexts
    refine ⟨hok, hrec, hin, ?_⟩
    -- without a leaf there were no messages
    have hlast : contextMsgList.getLast? = none := by
      have hleaf : leaf none contextMsgList = none := hat'.pred_eq
      simpa [leaf] using hleaf
    rw [Call.sample, hlast, Option.map_none, Option.toList_none, List.append_nil,
      addContexts_sample hcontexts]
    exact hb.sample.imp fun _ _ hs => hs.mono hgrows.tables.strings
  · obtain ⟨hrec, hat', hin⟩ :=
      addContexts_recorded hb.ok hb.recorded hat hS hb.keysIn hzero hkeys hcontexts
    obtain ⟨hb₁, hgrows, -⟩ := addContexts_spec hb.ok b.isContext_none hzero hcontexts
    obtain ⟨-, hpre, -⟩ := addMetrics_spec hb₁.tables.strings (by simp) hmetrics
    obtain ⟨d, hd, rfl⟩ := hb₁.contexts.getId_eq_some hid
    refine ⟨hok, hrec.withStrings ⟨hpre, List.prefix_refl _, List.prefix_refl _,
      List.prefix_refl _⟩ rfl, ⟨hin.functions, hin.locations⟩, ?_⟩
    have hlast : contextMsgList.getLast?.map ContextMsg.contextId = some d.id := by
      have hleaf := hat'.pred_eq
      simpa [leaf, hd] using hleaf
    obtain ⟨msg, hmsg, hmsgid⟩ := Option.map_eq_some_iff.mp hlast
    have hmetric := addMetrics_recorded hb₁.tables.strings .nil hmetrics
    rw [Call.sample, hmsg, Option.map_some, Option.toList_some]
    refine List.rel_append ?_ (.cons ⟨hmsgid.symm, hmetric⟩ .nil)
    rw [addContexts_sample hcontexts]
    exact hb.sample.imp fun _ _ hs => hs.mono (hgrows.tables.strings.trans hpre)

/-- The run lemma: the history of the calls, and their samples. -/
theorem After.run {calls : List Call} (hb : b.After S H samples) (hS : NoCollision hash S)
    (hzero : ∀ call ∈ calls, ∀ msg ∈ call.contextMsgs, msg.contextId ≠ 0)
    (hkeys : ∀ s ∈ b.hashedRun hash calls, s ∈ S) (h : b.run hash calls = some b') :
    b'.After S (H ++ history calls) (samples ++ calls.flatMap Call.sample) := by
  induction calls generalizing b H samples with
  | nil =>
      cases h
      simpa [history] using hb
  | cons call calls ih =>
      obtain ⟨b₁, hcall, h⟩ := Option.bind_eq_some_iff.mp h
      rw [List.forall_mem_cons] at hzero
      rw [hashedRun, hcall, List.forall_mem_append] at hkeys
      have hb₁ : b₁.After S (H ++ withPred none call.contextMsgs) (samples ++ call.sample) := by
        cases call with
        | addMetricType valueType unit des =>
            simpa [Call.contextMsgs, withPred, Call.sample] using hb.addMetricType hcall
        | addSample contextMsgList metricList => exact hb.addSample hS hzero.1 hkeys.1 hcall
      have hb' := ih hb₁ hzero.2 hkeys.2 h
      rw [history, List.flatMap_cons, List.flatMap_cons, ← List.append_assoc, ← List.append_assoc]
      exact hb'

end Builder

/-! ### The round trip

The two conditions on calls, that their messages agree and that a sample has each of its
contexts once, are those that the converter's calls fulfil. -/

/-- Messages with the same id show the same, and come after the same context. -/
def Consistent (H : List (Option Nat × ContextMsg)) : Prop :=
  ∀ m ∈ H, ∀ m' ∈ H, m.2.contextId = m'.2.contextId → m.1 = m'.1 ∧ shown m.2 = shown m'.2

instance (H : List (Option Nat × ContextMsg)) : Decidable (Consistent H) :=
  inferInstanceAs (Decidable (∀ m ∈ H, ∀ m' ∈ H,
    m.2.contextId = m'.2.contextId → m.1 = m'.1 ∧ shown m.2 = shown m'.2))

/-- A sample has contexts, each once, and none of them has the id 0. -/
def Call.WellFormed : Call → Prop
  | .addMetricType _ _ _ => True
  | .addSample contextMsgList _ => contextMsgList ≠ [] ∧
    (∀ msg ∈ contextMsgList, msg.contextId ≠ 0) ∧
    (contextMsgList.map ContextMsg.contextId).Nodup

/-- What a call shows and counts. -/
def Call.decoded : Call → List (List Shown × List MetricMsg)
  | .addMetricType _ _ _ => []
  | .addSample contextMsgList metricList => [(contextMsgList.map shown, metricList)]

/-- The messages of a call are not for the root. -/
theorem Call.WellFormed.ne_zero {call : Call} (h : call.WellFormed) :
    ∀ msg ∈ call.contextMsgs, msg.contextId ≠ 0 := by
  cases call with
  | addMetricType valueType unit des => simp [Call.contextMsgs]
  | addSample contextMsgList metricList => exact h.2.1

namespace Builder

variable {b : Builder} {H : List (Option Nat × ContextMsg)} {S : List (List Char)}
  {samples : List (Nat × List MetricMsg)}

/-- The last message comes after the leaf of the others. -/
theorem withPred_append (pred : Option Nat) (contextMsgList : List ContextMsg) (msg : ContextMsg) :
    withPred pred (contextMsgList ++ [msg]) =
      withPred pred contextMsgList ++ [(leaf pred contextMsgList, msg)] := by
  induction contextMsgList generalizing pred with
  | nil => rfl
  | cons msg' contextMsgList ih =>
      rw [List.cons_append, withPred, ih, withPred, List.cons_append, leaf_cons]

/-- The messages themselves are as they were. -/
theorem map_snd_withPred (pred : Option Nat) (contextMsgList : List ContextMsg) :
    (withPred pred contextMsgList).map Prod.snd = contextMsgList := by
  induction contextMsgList generalizing pred with
  | nil => rfl
  | cons msg contextMsgList ih => rw [withPred, List.map_cons, ih]

/-- When messages with the same id agree, a context says what any of them did. -/
theorem Recorded.context (hrec : b.Recorded H) (hcons : Consistent H)
    {m : Option Nat × ContextMsg} (hm : m ∈ H) : ∃ d ∈ b.contextTable.dcontexts,
      d.id = m.2.contextId ∧ d.parentId = m.1.getD 0 ∧
        b.toTables.Resolves d.locationId (shown m.2) := by
  obtain ⟨m', hm'⟩ : ∃ m', firstMsg H m.2.contextId = some m' :=
    Option.isSome_iff_exists.mp (List.find?_isSome.mpr ⟨m, hm, by simp⟩)
  obtain ⟨hmem, hid⟩ := firstMsg_eq_some hm'
  obtain ⟨d, hd, hdid, hparent, hresolves⟩ := hrec.first m' hmem (hid ▸ hm')
  obtain ⟨hpred, hshown⟩ := hcons m' hmem m hm hid
  exact ⟨d, hd, hdid.trans hid, hpred ▸ hparent, hshown ▸ hresolves⟩

/-- From the leaf of a sample the parents lead through all its messages to the root. -/
theorem callPath_eq (hb : b.Ok) (hrec : b.Recorded H) (hcons : Consistent H)
    {contextMsgList : List ContextMsg} (hzero : ∀ msg ∈ contextMsgList, msg.contextId ≠ 0)
    (hmem : ∀ m ∈ withPred none contextMsgList, m ∈ H) {fuel : Nat}
    (hfuel : contextMsgList.length < fuel) :
    b.profile.callPath fuel ((leaf none contextMsgList).getD 0) = some (contextMsgList.map shown) := by
  -- from the leaf to the root, so from the end of the list
  induction contextMsgList using List.reverseRecOn generalizing fuel with
  | nil =>
      cases fuel with
      | zero => cases hfuel
      | succ fuel => rfl
  | append_singleton contextMsgList msg ih =>
      cases fuel with
      | zero => cases hfuel
      | succ fuel =>
          rw [withPred_append, List.forall_mem_append] at hmem
          rw [List.forall_mem_append] at hzero
          have hne := hzero.2 msg List.mem_cons_self
          obtain ⟨d, hd, hid, hparent, hresolves⟩ :=
            hrec.context hcons (hmem.2 _ List.mem_cons_self)
          have hleaf : (leaf none (contextMsgList ++ [msg])).getD 0 = msg.contextId := by simp [leaf]
          have hfind : b.profile.context.find? (fun c => c.id = msg.contextId) = some d :=
            find?_id hb.contexts.nodup hd hid
          have hpath := ih hzero.1 hmem.1 (by simpa using hfuel)
          simp [Profile.callPath, hleaf, hne, hfind, hparent, hpath, hb.resolve_eq hresolves]

/-- A call path is no longer than the table of contexts. -/
theorem length_le_contexts (hrec : b.Recorded H) (hcons : Consistent H)
    {contextMsgList : List ContextMsg} (hnodup : (contextMsgList.map ContextMsg.contextId).Nodup)
    {pred : Option Nat} (hmem : ∀ m ∈ withPred pred contextMsgList, m ∈ H) :
    contextMsgList.length ≤ b.profile.context.length := by
  have hsubset : contextMsgList.map ContextMsg.contextId ⊆
      b.contextTable.dcontexts.map DContext.id := by
    intro id hid
    obtain ⟨msg, hmsg, rfl⟩ := List.mem_map.mp hid
    rw [← map_snd_withPred pred contextMsgList] at hmsg
    obtain ⟨m, hm, rfl⟩ := List.mem_map.mp hmsg
    obtain ⟨d, hd, hdid, -⟩ := hrec.context hcons (hmem m hm)
    exact hdid ▸ List.mem_map_of_mem hd
  have hlen := (List.subperm_of_subset hnodup hsubset).length_le
  rw [List.length_map, List.length_map] at hlen
  exact hlen

/-- Options that are all there can be collected. -/
theorem mapM_eq_some {A B : Type} {f : A → Option B} {l : List A} {l' : List B}
    (h : List.Forall₂ (fun a b => f a = some b) l l') : l.mapM f = some l' := by
  induction h with
  | nil => rfl
  | cons hhead _ ih => simp [hhead, ih]

/-- A metric decodes to the one that was given. -/
theorem decodeMetric_eq {m : Metric} {msg : MetricMsg} (h : m.Is b.stringTable msg) :
    b.profile.decodeMetric m = some msg := by
  obtain ⟨hint, huint, hstr⟩ := h
  simp [Profile.decodeMetric, profile, hint, huint, hstr]

/-- The sample of a call decodes to what the call was given. -/
theorem After.decodeSample (hb : b.After S H samples) (hcons : Consistent H)
    {contextMsgList : List ContextMsg} {metricList : List MetricMsg}
    (hwf : (Call.addSample contextMsgList metricList).WellFormed)
    (hmem : ∀ m ∈ withPred none contextMsgList, m ∈ H) {s : Sample} {e : Nat × List MetricMsg}
    (he : e ∈ (Call.addSample contextMsgList metricList).sample) (hs : s.Is b.stringTable e) :
    b.profile.decodeSample s = some (contextMsgList.map shown, metricList) := by
  obtain ⟨-, hzero, hnodup⟩ := hwf
  obtain ⟨msg, hmsg, rfl⟩ : ∃ msg, contextMsgList.getLast? = some msg ∧
      (msg.contextId, metricList) = e := by simpa [Call.sample] using he
  have hleaf : (leaf none contextMsgList).getD 0 = s.contextId := by
    rw [hs.1]
    simp [leaf, hmsg]
  have hpath := callPath_eq hb.ok hb.recorded hcons hzero hmem
    (Nat.lt_succ_of_le (length_le_contexts hb.recorded hcons hnodup hmem))
  have hmetrics := mapM_eq_some (hs.2.imp fun _ _ hm => decodeMetric_eq hm)
  simp [Profile.decodeSample, ← hleaf, hpath, hmetrics]

/-- The samples of calls decode to what the calls were given. -/
theorem After.decode (hb : b.After S H samples) (hcons : Consistent H) {calls : List Call}
    (hwf : ∀ call ∈ calls, call.WellFormed) (hmem : ∀ m ∈ history calls, m ∈ H)
    {l : List Sample} (hl : List.Forall₂ (Sample.Is b.stringTable) l (calls.flatMap Call.sample)) :
    l.mapM b.profile.decodeSample = some (calls.flatMap Call.decoded) := by
  induction calls generalizing l with
  | nil =>
      cases hl
      rfl
  | cons call calls ih =>
      rw [List.forall_mem_cons] at hwf
      rw [history, List.flatMap_cons, List.forall_mem_append] at hmem
      rw [List.flatMap_cons] at hl ⊢
      cases call with
      | addMetricType valueType unit des => exact ih hwf.2 hmem.2 hl
      | addSample contextMsgList metricList =>
          obtain ⟨msg, hmsg⟩ : ∃ msg, contextMsgList.getLast? = some msg :=
            ⟨_, List.getLast?_eq_some_getLast hwf.1.1⟩
          have hsample : (Call.addSample contextMsgList metricList).sample =
              [(msg.contextId, metricList)] := by simp [Call.sample, hmsg]
          rw [hsample] at hl
          cases hl with
          | cons hs hrest =>
              have hdecode := hb.decodeSample hcons hwf.1 hmem.1
                (hsample ▸ List.mem_cons_self) hs
              have hmapM := ih hwf.2 hmem.2 hrest
              simp [hdecode, hmapM, Call.decoded]

/-- **Decoding.** Decoding gives back what the builder was given, as long as no two of the keys
that it looks up collide. -/
theorem decode_run (hash : List Char → Int) (calls : List Call)
    (hwf : ∀ call ∈ calls, call.WellFormed) (hcons : Consistent (history calls))
    (hhash : NoCollision hash (new.hashedRun hash calls)) :
    ((∀ call ∈ calls, call.Fits) → ∃ b, new.run hash calls = some b) ∧
      ∀ b, new.run hash calls = some b →
        b.profile.sample.mapM b.profile.decodeSample = some (calls.flatMap Call.decoded) := by
  have hzero : ∀ call ∈ calls, ∀ msg ∈ call.contextMsgs, msg.contextId ≠ 0 :=
    fun call hcall => (hwf call hcall).ne_zero
  refine ⟨ok_new.exists_run hash hzero, fun b hrun => ?_⟩
  have hb := after_new.run hhash hzero (fun _ hs => hs) hrun
  rw [List.nil_append, List.nil_append] at hb
  exact hb.decode hcons hwf (fun _ hm => hm) hb.sample

/-- Two samples that share a context and a function. -/
theorem decode_run_shared :
    let calls := [
      .addSample [⟨1, "a.A".toList, "f".toList, "f".toList, 0, 3⟩,
        ⟨2, "a.B".toList, "g".toList, "g".toList, 0, 4⟩] [⟨0, 5, []⟩],
      .addSample [⟨1, "a.A".toList, "f".toList, "f".toList, 0, 3⟩,
        ⟨3, "a.B".toList, "g".toList, "g".toList, 0, 6⟩] [⟨0, 6, "x".toList⟩]]
    ∃ b, new.run (fun s => s.foldl (fun n c => n * 256 + c.toNat) 1) calls = some b ∧
      b.profile.sample.mapM b.profile.decodeSample = some [
        ([("a.A".toList, "f".toList, 3), ("a.B".toList, "g".toList, 4)], [⟨0, 5, []⟩]),
        ([("a.A".toList, "f".toList, 3), ("a.B".toList, "g".toList, 6)], [⟨0, 6, "x".toList⟩])] := by
  intro calls
  have hwf : ∀ call ∈ calls, call.WellFormed := by simp [calls, Call.WellFormed]
  have hfits : ∀ call ∈ calls, call.Fits := by
    simp [calls, Call.Fits, ContextMsgFits, MetricMsg.Fits, fitsInt64, fitsUint64]
  obtain ⟨hreturns, hdecode⟩ := decode_run (fun s => s.foldl (fun n c => n * 256 + c.toNat) 1)
    calls hwf (by decide) (by decide +kernel)
  obtain ⟨b, hrun⟩ := hreturns hfits
  exact ⟨b, hrun, hdecode b hrun⟩

end Builder

end DataBuilder

end DroidPerf
