import DroidPerf.TablesSound

/-!
# DroidPerf.DataBuilderSound

The records of a profile refer to one another by positions and ids that exist.

`Builder.Ok` is kept by every call (`Ok.step`), whatever messages it is given, and makes the
profile intact (`Ok.intact`).

The invariant of the tables is proved with the tables; here it is joined with what metric types
and samples refer to. Since no call takes anything out (`Grows`), what referred to an entry
still does. Nothing depends on the hash: two keys that collide share a record, and the
references stay right.
-/

namespace DroidPerf

open Text Intern

namespace DataBuilder

variable {hash : List Char → Int}

/-! ### The builder

The builder after each of its methods, from the innermost to `addSample`. -/

namespace Builder

/-- The tables are as they should be, and metric types and samples refer to them. -/
structure Ok (b : Builder) : Prop where
  tables : b.toTables.Ok
  contexts : b.contextTable.Ok b.locationTable.length
  metricType : ∀ m ∈ b.metricType, m.unit < b.stringTable.length ∧ m.des < b.stringTable.length
  sample : ∀ s ∈ b.sample, s.contextId ∈ b.contextTable.dcontexts.map DContext.id ∧
    ∀ m ∈ s.metric, m.strValue < b.stringTable.length

/-- A new builder has the empty string and nothing else. -/
theorem ok_new : new.Ok := by
  refine ⟨⟨⟨rfl, ?_⟩, ?_, ?_, ?_, ?_⟩, ⟨⟨rfl, ?_, ?_⟩, ?_, ?_, ?_, ?_, ?_, ?_, ?_⟩, ?_, ?_⟩
  case refine_1 =>
    intro i e he
    rw [new, List.getElem?_singleton] at he
    split at he
    · cases he
      simp_all
    · cases he
  all_goals simp [new]

/-- Strings, locations and contexts are never taken out. -/
structure Grows (b b' : Builder) : Prop where
  tables : b.toTables.Grows b'.toTables
  ids : b.contextTable.dcontexts.map DContext.id <+: b'.contextTable.dcontexts.map DContext.id

/-- The builder as it is has everything that it had. -/
theorem Grows.refl (b : Builder) : b.Grows b := ⟨.refl _, List.prefix_refl _⟩

/-- What is kept by one call and by the next one is kept by both. -/
theorem Grows.trans {b b₁ b₂ : Builder} (h : b.Grows b₁) (h' : b₁.Grows b₂) : b.Grows b₂ :=
  ⟨h.tables.trans h'.tables, h.ids.trans h'.ids⟩

variable {b b' : Builder}

/-- Metric types and samples refer to what does not change. -/
theorem Ok.of_grows (hb : b.Ok) (hgrows : b.Grows b') (htables : b'.toTables.Ok)
    (hcontexts : b'.contextTable.Ok b'.locationTable.length)
    (hmetricType : b'.metricType = b.metricType) (hsample : b'.sample = b.sample) : b'.Ok where
  tables := htables
  contexts := hcontexts
  metricType m hm := by
    have hlen := hgrows.tables.strings.length_le
    obtain ⟨hunit, hdes⟩ := hb.metricType m (hmetricType ▸ hm)
    exact ⟨hunit.trans_le hlen, hdes.trans_le hlen⟩
  sample s hs := by
    obtain ⟨hid, hmetric⟩ := hb.sample s (hsample ▸ hs)
    exact ⟨hgrows.ids.subset hid,
      fun m hm => (hmetric m hm).trans_le hgrows.tables.strings.length_le⟩

/-- More strings do no harm. -/
theorem Ok.withStrings (hb : b.Ok) {strings : StringTable} (hgrows : b.stringTable <+: strings)
    (hstrings : strings.Ok) : ({ b with stringTable := strings } : Builder).Ok :=
  hb.of_grows ⟨⟨hgrows, List.prefix_refl _, List.prefix_refl _, List.prefix_refl _⟩,
    List.prefix_refl _⟩ (hb.tables.withStrings hgrows hstrings) hb.contexts rfl rfl

/-- What `addMetricType` does: two strings and a metric type. -/
theorem addMetricType_cases {valueType : Int} {unit des : List Char}
    (h : b.addMetricType valueType unit des = some b') :
    ∃ i j strings strings', b.stringTable.addString unit = some (i, strings) ∧
      strings.addString des = some (j, strings') ∧
      b' = { b with
        stringTable := strings'
        metricType := b.metricType ++ [⟨valueType, i, j⟩] } := by
  unfold addMetricType at h
  split at h
  · simp only [Option.bind_eq_bind, Option.bind_eq_some_iff, Option.pure_def, Option.some.injEq,
      Prod.exists] at h
    obtain ⟨i, strings, hi, j, strings', hj, rfl⟩ := h
    exact ⟨i, j, strings, strings', hi, hj, rfl⟩
  · cases h

/-- A metric type refers to the two strings that were added with it. -/
theorem Ok.addMetricType (hb : b.Ok) {valueType : Int} {unit des : List Char}
    (h : b.addMetricType valueType unit des = some b') : b'.Ok := by
  obtain ⟨i, j, strings, strings', hi, hj, rfl⟩ := addMetricType_cases h
  have hok := hb.tables.strings.addString hi
  have hprej := StringTable.addString_isPrefix hj
  have hb' := hb.withStrings ((StringTable.addString_isPrefix hi).trans hprej) (hok.addString hj)
  refine { hb' with metricType := List.forall_mem_append.mpr ⟨hb'.metricType, ?_⟩ }
  intro m hm
  rw [List.mem_singleton.mp hm]
  exact ⟨(hb.tables.strings.addString_lt hi).trans_le hprej.length_le, hok.addString_lt hj⟩

/-- What adding the context of a message does. -/
theorem addContextFromMsg_spec (hb : b.Ok) {contextMsg : ContextMsg} {parentContext : Option Nat}
    {context : Nat} (hzero : contextMsg.contextId ≠ 0)
    (h : b.addContextFromMsg hash contextMsg parentContext = some (context, b')) :
    b'.Ok ∧ b.Grows b' ∧ context < b'.contextTable.dcontexts.length := by
  simp only [addContextFromMsg, Option.bind_eq_bind, Option.bind_eq_some_iff, Option.pure_def,
    Option.some.injEq, Prod.exists, Prod.mk.injEq] at h
  obtain ⟨location, tables, hlocation, context, contexts, hcontext, rfl, rfl⟩ := h
  obtain ⟨_, _, _, hadded, -, hlocated⟩ := Tables.addLocation_spec hb.tables hlocation
  have htables := hlocated.ok
  have hgrows := hadded.grows.trans hlocated.grows
  have hcontexts := hb.contexts.addContext hzero hgrows.locations.length_le hlocated.id_lt hcontext
  obtain ⟨d, hd, -⟩ := hb.contexts.getElem?_addContext hcontext
  have hgrows' : b.Grows { b with toTables := tables, contextTable := contexts } := by
    refine ⟨hgrows, ?_⟩
    -- the context was there, or it is appended
    obtain ⟨rfl, -⟩ | ⟨-, -, -, -, parentId, -, hdcontexts⟩ :=
      ContextTable.addContext_cases hb.contexts hcontext
    · exact List.prefix_refl _
    · show _ <+: contexts.dcontexts.map DContext.id
      rw [hdcontexts, ContextTable.map_id_attach]
      exact List.prefix_append _ _
  exact ⟨hb.of_grows hgrows' htables hcontexts rfl rfl, hgrows',
    (List.getElem?_eq_some_iff.mp hd).1⟩

/-- A context that the loop of `addSample` can be at. -/
def IsContext (b : Builder) (curContext : Option Nat) : Prop :=
  ∀ c, curContext = some c → c < b.contextTable.dcontexts.length

/-- A context that the loop can be at stays one when the builder grows. -/
theorem IsContext.mono {curContext : Option Nat} (h : b.IsContext curContext)
    (hgrows : b.Grows b') : b'.IsContext curContext := by
  intro c hc
  have hlen := hgrows.ids.length_le
  rw [List.length_map, List.length_map] at hlen
  exact (h c hc).trans_le hlen

/-- The loop over the messages of a sample. -/
theorem addContexts_spec {contextMsgList : List ContextMsg} {curContext curContext' : Option Nat}
    (hb : b.Ok) (hcur : b.IsContext curContext)
    (hzero : ∀ msg ∈ contextMsgList, msg.contextId ≠ 0)
    (h : b.addContexts hash curContext contextMsgList = some (curContext', b')) :
    b'.Ok ∧ b.Grows b' ∧ b'.IsContext curContext' := by
  induction contextMsgList generalizing b curContext with
  | nil =>
      cases h
      exact ⟨hb, .refl _, hcur⟩
  | cons msg contextMsgList ih =>
      obtain ⟨⟨context, b₁⟩, hmsg, h⟩ := Option.bind_eq_some_iff.mp h
      rw [List.forall_mem_cons] at hzero
      obtain ⟨hb₁, hgrows₁, hcontext⟩ := addContextFromMsg_spec hb hzero.1 hmsg
      obtain ⟨hb', hgrows, hcur'⟩ := ih hb₁ (fun c hc => Option.some.inj hc ▸ hcontext) hzero.2 h
      exact ⟨hb', hgrows₁.trans hgrows, hcur'⟩

/-- The loop over the metrics of a sample. -/
theorem addMetrics_spec {metricList : List MetricMsg} {strings strings' : StringTable}
    {metric metric' : List Metric} (hstrings : strings.Ok)
    (hmetric : ∀ m ∈ metric, m.strValue < strings.length)
    (h : addMetrics strings metric metricList = some (metric', strings')) :
    strings'.Ok ∧ strings <+: strings' ∧ ∀ m ∈ metric', m.strValue < strings'.length := by
  induction metricList generalizing strings metric with
  | nil =>
      cases h
      exact ⟨hstrings, List.prefix_refl _, hmetric⟩
  | cons msg metricList ih =>
      unfold addMetrics at h
      split at h
      · obtain ⟨⟨i, strings₁⟩, hi, h⟩ := Option.bind_eq_some_iff.mp h
        have hpre := StringTable.addString_isPrefix hi
        obtain ⟨hok, hpre', hlt⟩ := ih (hstrings.addString hi) (by
          -- the metrics so far refer to strings that stay, the new one to the string just
          -- added
          refine List.forall_mem_append.mpr ⟨fun m hm => ?_, fun m hm => ?_⟩
          · exact (hmetric m hm).trans_le hpre.length_le
          · rw [List.mem_singleton.mp hm]
            exact hstrings.addString_lt hi) h
        exact ⟨hok, hpre.trans hpre', hlt⟩
      · cases h

/-- What `addSample` does: contexts, and then metrics when there is a leaf. -/
theorem addSample_cases {contextMsgList : List ContextMsg} {metricList : List MetricMsg}
    (h : b.addSample hash contextMsgList metricList = some b') :
    b.addContexts hash none contextMsgList = some (none, b') ∨
    ∃ context b₁ contextId metric strings,
      b.addContexts hash none contextMsgList = some (some context, b₁) ∧
      b₁.contextTable.getId context = some contextId ∧
      addMetrics b₁.stringTable [] metricList = some (metric, strings) ∧
      b' = { b₁ with stringTable := strings, sample := b₁.sample ++ [⟨contextId, metric⟩] } := by
  obtain ⟨⟨curContext, b₁⟩, hcontexts, h⟩ := Option.bind_eq_some_iff.mp h
  cases curContext with
  | none =>
      cases h
      exact .inl hcontexts
  | some context =>
      simp only [Option.bind_eq_bind, Option.bind_eq_some_iff, Option.pure_def, Option.some.injEq,
        Prod.exists] at h
      obtain ⟨contextId, hid, metric, strings, hmetrics, rfl⟩ := h
      exact .inr ⟨context, b₁, contextId, metric, strings, hcontexts, hid, hmetrics, rfl⟩

/-- At the root the loop is at no context. -/
theorem isContext_none (b : Builder) : b.IsContext none := by
  intro c hc
  cases hc

/-- A sample refers to the last of its contexts and to the strings of its metrics. -/
theorem Ok.addSample {contextMsgList : List ContextMsg} {metricList : List MetricMsg} (hb : b.Ok)
    (hzero : ∀ msg ∈ contextMsgList, msg.contextId ≠ 0)
    (h : b.addSample hash contextMsgList metricList = some b') : b'.Ok := by
  obtain hcontexts | ⟨context, b₁, contextId, metric, strings, hcontexts, hid, hmetrics, rfl⟩ :=
    addSample_cases h
  · exact (addContexts_spec hb b.isContext_none hzero hcontexts).1
  · obtain ⟨hb₁, -, hcur⟩ := addContexts_spec hb b.isContext_none hzero hcontexts
    obtain ⟨d, hd, rfl⟩ := hb₁.contexts.getId_eq_some hid
    obtain ⟨hstrings, hpre, hmetric⟩ := addMetrics_spec hb₁.tables.strings (by simp) hmetrics
    have hb₂ := hb₁.withStrings hpre hstrings
    refine { hb₂ with sample := List.forall_mem_append.mpr ⟨hb₂.sample, fun s hs => ?_⟩ }
    rw [List.mem_singleton.mp hs]
    exact ⟨List.mem_map_of_mem (List.mem_of_getElem? hd), hmetric⟩

end Builder

/-- The messages of a call. -/
def Call.contextMsgs : Call → List ContextMsg
  | .addMetricType _ _ _ => []
  | .addSample contextMsgList _ => contextMsgList

namespace Builder

variable {b b' : Builder}

/-- The step lemma: a call keeps the builder in order. -/
theorem Ok.step (hb : b.Ok) {call : Call} (hzero : ∀ msg ∈ call.contextMsgs, msg.contextId ≠ 0)
    (h : b.step hash call = some b') : b'.Ok := by
  cases call with
  | addMetricType valueType unit des => exact hb.addMetricType h
  | addSample contextMsgList metricList => exact hb.addSample hzero h

/-- The run lemma: calls keep the builder in order. -/
theorem Ok.run {calls : List Call} (hb : b.Ok)
    (hzero : ∀ call ∈ calls, ∀ msg ∈ call.contextMsgs, msg.contextId ≠ 0)
    (h : b.run hash calls = some b') : b'.Ok := by
  induction calls generalizing b with
  | nil =>
      cases h
      exact hb
  | cons call calls ih =>
      obtain ⟨b₁, hcall, h⟩ := Option.bind_eq_some_iff.mp h
      rw [List.forall_mem_cons] at hzero
      exact ih (hb.step hzero.1 hcall) hzero.2 h

end Builder

/-! ### Profiles

What intact means is said of the message alone, by its records. -/

/-- The positions of strings that a profile holds. -/
def Profile.stringIndices (p : Profile) : List Nat :=
  p.metricType.flatMap (fun m => [m.unit, m.des]) ++
    p.sample.flatMap (fun s => s.metric.map Metric.strValue) ++
    p.function.flatMap (fun f => [f.name, f.systemName]) ++
    p.sourceFile.flatMap (fun f => [f.filename, f.locationPath])

/-- Every reference in a profile leads to a record, and the links between contexts agree. -/
structure Profile.Intact (p : Profile) : Prop where
  string_zero : p.stringTable[0]? = some []
  string_lt : ∀ i ∈ p.stringIndices, i < p.stringTable.length
  sourceFile_nodup : (p.sourceFile.map SourceFile.id).Nodup
  function_nodup : (p.function.map Function.id).Nodup
  location_nodup : (p.location.map Location.id).Nodup
  context_nodup : (p.context.map DContext.id).Nodup
  sample_context : ∀ s ∈ p.sample, s.contextId ∈ p.context.map DContext.id
  context_location : ∀ c ∈ p.context, c.locationId ∈ p.location.map Location.id
  line_function : ∀ l ∈ p.location, ∀ line ∈ l.line, line.functionId ∈ p.function.map Function.id
  function_sourceFile : ∀ f ∈ p.function, f.sourceFileId ∈ p.sourceFile.map SourceFile.id
  location_line : ∀ l ∈ p.location, l.line.length = 1
  context_parent : ∀ (i : Nat) c, p.context[i]? = some c → c.parentId = 0 ∨
    ∃ j parent, j < i ∧ p.context[j]? = some parent ∧ parent.id = c.parentId
  children_nodup : ∀ c ∈ p.context, c.childrenId.Nodup
  children : ∀ c ∈ p.context, ∀ id, id ∈ c.childrenId ↔
    ∃ child ∈ p.context, child.id = id ∧ child.parentId = c.id

namespace Builder

variable {b : Builder}

/-- Ids that are positions. -/
theorem map_eq_range {R : Type} {l : List R} (id : R → Nat)
    (h : ∀ (i : Nat) r, l[i]? = some r → id r = i) : l.map id = List.range l.length := by
  refine List.ext_getElem? fun i => ?_
  rw [List.getElem?_map]
  rcases Nat.lt_or_ge i l.length with hi | hi
  · rw [List.getElem?_eq_getElem hi, List.getElem?_range hi, Option.map_some,
      h i _ (List.getElem?_eq_getElem hi)]
  · rw [List.getElem?_eq_none hi, List.getElem?_eq_none (by simpa using hi), Option.map_none]

/-- The ids of functions are their positions. -/
theorem Ok.map_function_id (hb : b.Ok) :
    b.profile.function.map Function.id = List.range b.functionTable.length := by
  have hids := map_eq_range (fun e => e.2.id) fun i e he => (hb.tables.functions i e he).1
  rw [← hids, profile, List.map_map, Function.comp_def]

/-- The ids of locations are their positions. -/
theorem Ok.map_location_id (hb : b.Ok) :
    b.profile.location.map Location.id = List.range b.locationTable.length := by
  have hids := map_eq_range (fun e => e.2.id) fun i e he =>
    congrArg Location.id (hb.tables.locations i e he).1
  rw [← hids, profile, List.map_map, Function.comp_def]

/-- The id of a source file is its key. -/
theorem Ok.map_sourceFile_id (hb : b.Ok) :
    b.profile.sourceFile.map SourceFile.id = b.souceFileTable.map Prod.fst := by
  rw [profile, List.map_map]
  exact List.map_congr_left fun e he => congrArg SourceFile.id (hb.tables.files e he).1

/-- A function of the profile is an entry of its table. -/
theorem Ok.function_mem (hb : b.Ok) {f : Function} (hf : f ∈ b.profile.function) :
    ∃ key, b.FunctionOk key f := by
  obtain ⟨e, he, rfl⟩ := List.mem_map.mp hf
  obtain ⟨i, hi⟩ := List.getElem?_of_mem he
  exact ⟨e.1, (hb.tables.functions i e hi).2⟩

/-- A location has one line, in a function of the table. -/
theorem Ok.location_mem (hb : b.Ok) {l : Location} (hl : l ∈ b.profile.location) :
    ∃ line, l.line = [line] ∧ line.functionId < b.functionTable.length := by
  obtain ⟨e, he, rfl⟩ := List.mem_map.mp hl
  obtain ⟨i, hi⟩ := List.getElem?_of_mem he
  obtain ⟨heq, hlt⟩ := hb.tables.locations i e hi
  exact ⟨_, by rw [heq], hlt⟩

/-- All positions of strings are in the table. -/
theorem Ok.string_lt (hb : b.Ok) : ∀ i ∈ b.profile.stringIndices, i < b.stringTable.length := by
  simp only [Profile.stringIndices, List.forall_mem_append, List.forall_mem_flatMap]
  refine ⟨⟨⟨fun m hm => ?_, fun s hs => ?_⟩, fun f hf => ?_⟩, fun f hf => ?_⟩
  · simpa using hb.metricType m hm
  · simpa using (hb.sample s hs).2
  · obtain ⟨key, hok⟩ := hb.function_mem hf
    simpa using ⟨hok.name_lt, hok.systemName_lt⟩
  · obtain ⟨e, he, rfl⟩ := List.mem_map.mp hf
    obtain ⟨heq, hlt⟩ := hb.tables.files e he
    simpa [heq] using hlt

/-- A builder in order has an intact profile. -/
theorem Ok.intact (hb : b.Ok) : b.profile.Intact where
  string_zero := by rw [profile, List.getElem?_map, hb.tables.strings.zero, Option.map_some]
  string_lt := by simpa [profile] using hb.string_lt
  sourceFile_nodup := by
    rw [hb.map_sourceFile_id]
    exact hb.tables.files_nodup
  function_nodup := by
    rw [hb.map_function_id]
    exact List.nodup_range
  location_nodup := by
    rw [hb.map_location_id]
    exact List.nodup_range
  context_nodup := hb.contexts.nodup
  sample_context s hs := (hb.sample s hs).1
  context_location c hc := by
    rw [hb.map_location_id, List.mem_range]
    exact hb.contexts.location c hc
  line_function l hl line hline := by
    obtain ⟨line', heq, hlt⟩ := hb.location_mem hl
    rw [heq, List.mem_singleton] at hline
    rw [hb.map_function_id, List.mem_range, hline]
    exact hlt
  function_sourceFile f hf := by
    obtain ⟨key, hok⟩ := hb.function_mem hf
    rw [hb.map_sourceFile_id]
    exact hok.file_mem
  location_line l hl := by
    obtain ⟨line, heq, -⟩ := hb.location_mem hl
    rw [heq, List.length_singleton]
  context_parent := hb.contexts.parent
  children_nodup := hb.contexts.children_nodup
  children := hb.contexts.children

end Builder

/-! ### Calls that are accepted

The builder raises an exception only where a number does not fit its field. So calls whose
numbers fit are accepted, one after the other. -/

/-- The numbers of a message fit the fields they are stored in. -/
def ContextMsgFits (msg : ContextMsg) : Prop :=
  fitsUint64 msg.contextId = true ∧ fitsInt64 msg.startLine = true ∧ fitsInt64 msg.lineNo = true

/-- The same for a metric. -/
def MetricMsg.Fits (msg : MetricMsg) : Prop :=
  fitsInt64 msg.intValue = true ∧ fitsUint64 msg.uintValue = true

/-- The same for a call. -/
def Call.Fits : Call → Prop
  | .addMetricType valueType _ _ => fitsInt64 valueType = true
  | .addSample contextMsgList metricList =>
    (∀ msg ∈ contextMsgList, ContextMsgFits msg) ∧ ∀ msg ∈ metricList, msg.Fits

namespace Builder

variable {b b' : Builder}

/-- A metric type whose number fits is accepted. -/
theorem exists_addMetricType {valueType : Int} (hfits : fitsInt64 valueType = true)
    (b : Builder) (unit des : List Char) : ∃ b', b.addMetricType valueType unit des = some b' := by
  obtain ⟨i, strings, hi⟩ := b.stringTable.exists_addString unit
  obtain ⟨j, strings', hj⟩ := strings.exists_addString des
  simp [addMetricType, hfits, hi, hj]

/-- A message whose numbers fit is accepted. -/
theorem Ok.exists_addContextFromMsg (hb : b.Ok) (hash : List Char → Int) {msg : ContextMsg}
    (hfits : ContextMsgFits msg) {curContext : Option Nat} (hcur : b.IsContext curContext) :
    ∃ context b', b.addContextFromMsg hash msg curContext = some (context, b') := by
  obtain ⟨hid, hstart, hline⟩ := hfits
  obtain ⟨location, tables, hlocation⟩ :=
    b.toTables.exists_addLocation hash msg.filePath msg.name msg.systemName hstart hline
  obtain ⟨context, contexts, hcontext⟩ :=
    hb.contexts.exists_addContext location hid hcur
  simp [addContextFromMsg, hlocation, hcontext]

/-- All messages of a sample are accepted, each below the one before. -/
theorem Ok.exists_addContexts {contextMsgList : List ContextMsg} (hb : b.Ok)
    (hash : List Char → Int) {curContext : Option Nat} (hcur : b.IsContext curContext)
    (hzero : ∀ msg ∈ contextMsgList, msg.contextId ≠ 0)
    (hfits : ∀ msg ∈ contextMsgList, ContextMsgFits msg) :
    ∃ r, b.addContexts hash curContext contextMsgList = some r := by
  induction contextMsgList generalizing b curContext with
  | nil => exact ⟨_, rfl⟩
  | cons msg contextMsgList ih =>
      rw [List.forall_mem_cons] at hzero hfits
      obtain ⟨context, b₁, hmsg⟩ := hb.exists_addContextFromMsg hash hfits.1 hcur
      obtain ⟨hb₁, -, hcontext⟩ := addContextFromMsg_spec hb hzero.1 hmsg
      obtain ⟨r, hr⟩ := ih hb₁ (fun c hc => Option.some.inj hc ▸ hcontext) hzero.2 hfits.2
      exact ⟨r, by simp [addContexts, hmsg, hr]⟩

/-- The metrics of a sample are accepted if they fit. -/
theorem exists_addMetrics {metricList : List MetricMsg} (hfits : ∀ msg ∈ metricList, msg.Fits)
    (strings : StringTable) (metric : List Metric) :
    ∃ r, addMetrics strings metric metricList = some r := by
  induction metricList generalizing strings metric with
  | nil => exact ⟨_, rfl⟩
  | cons msg metricList ih =>
      rw [List.forall_mem_cons] at hfits
      obtain ⟨i, strings₁, hi⟩ := strings.exists_addString msg.strValue
      obtain ⟨r, hr⟩ := ih hfits.2 strings₁ (metric ++ [⟨msg.intValue, msg.uintValue, i⟩])
      exact ⟨r, by simp [addMetrics, hfits.1.1, hfits.1.2, hi, hr]⟩

/-- A sample is accepted if its messages and its metrics are. -/
theorem Ok.exists_addSample {contextMsgList : List ContextMsg} {metricList : List MetricMsg}
    (hb : b.Ok) (hzero : ∀ msg ∈ contextMsgList, msg.contextId ≠ 0)
    (hfits : ∀ msg ∈ contextMsgList, ContextMsgFits msg) (hmetric : ∀ msg ∈ metricList, msg.Fits) :
    ∃ b', b.addSample hash contextMsgList metricList = some b' := by
  obtain ⟨⟨curContext, b₁⟩, hcontexts⟩ := hb.exists_addContexts hash b.isContext_none hzero hfits
  obtain ⟨hb₁, -, hcur⟩ := addContexts_spec hb b.isContext_none hzero hcontexts
  cases curContext with
  | none => exact ⟨b₁, by simp [Builder.addSample, hcontexts]⟩
  | some context =>
      have hid := hb₁.contexts.getId_eq (List.getElem?_eq_getElem (hcur context rfl))
      obtain ⟨r, hr⟩ := exists_addMetrics hmetric b₁.stringTable []
      simp [Builder.addSample, hcontexts, hid, hr]

/-- Calls that fit are accepted. -/
theorem Ok.exists_run {calls : List Call} (hb : b.Ok) (hash : List Char → Int)
    (hzero : ∀ call ∈ calls, ∀ msg ∈ call.contextMsgs, msg.contextId ≠ 0)
    (hfits : ∀ call ∈ calls, call.Fits) : ∃ b', b.run hash calls = some b' := by
  induction calls generalizing b with
  | nil => exact ⟨b, rfl⟩
  | cons call calls ih =>
      rw [List.forall_mem_cons] at hzero hfits
      obtain ⟨b₁, hcall⟩ : ∃ b₁, b.step hash call = some b₁ := by
        cases call with
        | addMetricType valueType unit des => exact exists_addMetricType hfits.1 b unit des
        | addSample contextMsgList metricList =>
            exact hb.exists_addSample hzero.1 hfits.1.1 hfits.1.2
      obtain ⟨b', hrun⟩ := ih (hb.step hzero.1 hcall) hzero.2 hfits.2
      exact ⟨b', by simp [Builder.run, hcall, ← hrun]⟩

/-- **Profiles are intact.** Whatever is added, and however keys collide, the profile is
intact; and only numbers that are too large for their fields stop the builder. -/
theorem profile_intact (hash : List Char → Int) (calls : List Call)
    (hzero : ∀ call ∈ calls, ∀ msg ∈ call.contextMsgs, msg.contextId ≠ 0) :
    ((∀ call ∈ calls, call.Fits) → ∃ b, new.run hash calls = some b) ∧
      ∀ b, new.run hash calls = some b → b.profile.Intact :=
  ⟨ok_new.exists_run hash hzero, fun _ hrun => (ok_new.run hzero hrun).intact⟩

/-- All keys collide, and a context comes again below another parent. -/
theorem profile_intact_of_collisions :
    let calls := [
      .addMetricType 1 "cpu cycle".toList "cpu cycle".toList,
      .addSample [⟨1, "a.A".toList, "f".toList, "f".toList, 0, 3⟩,
        ⟨2, "a.B".toList, "g".toList, "g".toList, 0, 4⟩] [⟨0, 5, []⟩],
      .addSample [⟨3, "a.B".toList, "h".toList, "h".toList, 0, 4⟩,
        ⟨2, "a.C".toList, "g".toList, "g".toList, 0, 5⟩] [⟨0, 6, "x".toList⟩]]
    ∃ b, new.run (fun _ => 0) calls = some b ∧ b.profile.Intact := by
  intro calls
  have hzero : ∀ call ∈ calls, ∀ msg ∈ call.contextMsgs, msg.contextId ≠ 0 := by
    simp [calls, Call.contextMsgs]
  have hfits : ∀ call ∈ calls, call.Fits := by
    simp [calls, Call.Fits, ContextMsgFits, MetricMsg.Fits, fitsInt64, fitsUint64]
  obtain ⟨hreturns, hintact⟩ := profile_intact (fun _ => 0) calls hzero
  obtain ⟨b, hrun⟩ := hreturns hfits
  exact ⟨b, hrun, hintact b hrun⟩

end Builder

end DataBuilder

end DroidPerf
