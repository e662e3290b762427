import DroidPerf.Lib.Intern
import DroidPerf.Converter

/-!
# DroidPerf.DataBuilder

The builder of profiles (`drcctprof_data_builder.py`).

* A table keeps the repeated field of the profile that it fills: nothing else writes to it. Its
  dictionary and the field grow together, so an entry is a dictionary key and the record;
  `maxIndex` is the number of entries, for strings without the first.
* A Python exception is `none`. Assigning a value outside the range of a field's type raises
  one; positions in a table are always in range.
* `hash` is Python's `hash` of a string. It is a parameter, as strings are hashed with a seed
  that changes from process to process.

The four tables do the same with a key of their own and are instances of `getOrAdd`, which
looks a key up under a given comparison and appends a record if there is none.
-/

namespace DroidPerf

open Text Intern

namespace DataBuilder

/-! ### The profile

The messages of the profile, with the fields that the builder sets. Records refer to one
another by ids or by positions in the string table. -/

/-- The message `Metric`; `strValue` is a position in the string table. -/
structure Metric where
  intValue : Int
  uintValue : Int
  strValue : Nat
  deriving DecidableEq, Repr

/-- The message `Sample`. -/
structure Sample where
  contextId : Nat
  metric : List Metric
  deriving DecidableEq, Repr

/-- The message `MetricType`. -/
structure MetricType where
  valueType : Int
  unit : Nat
  des : Nat
  deriving DecidableEq, Repr

/-- The message `Context`. -/
structure DContext where
  id : Nat
  locationId : Nat
  parentId : Nat
  childrenId : List Nat
  deriving DecidableEq, Repr

/-- The message `Line`. -/
structure Line where
  functionId : Nat
  line : Int
  deriving DecidableEq, Repr

/-- The message `Location`. -/
structure Location where
  id : Nat
  line : List Line
  deriving DecidableEq, Repr

/-- The message `Function`. -/
structure Function where
  id : Nat
  name : Nat
  systemName : Nat
  sourceFileId : Nat
  startLine : Int
  deriving DecidableEq, Repr

/-- The message `SourceFile`. -/
structure SourceFile where
  id : Nat
  filename : Nat
  locationPath : Nat
  type : Int
  deriving DecidableEq, Repr

/-- The message `Profile`. -/
structure Profile where
  metricType : List MetricType
  sample : List Sample
  context : List DContext
  location : List Location
  function : List Function
  sourceFile : List SourceFile
  stringTable : List (List Char)
  deriving DecidableEq, Repr

/-- A value of a field of type `int64`. -/
def fitsInt64 (v : Int) : Bool := -2 ^ 63 ≤ v ∧ v < 2 ^ 63

/-- A value of a field of type `uint64`. -/
def fitsUint64 (v : Int) : Bool := 0 ≤ v ∧ v < 2 ^ 64

/-! ### Strings and source files

Keys of these two tables are a string and a number, which Python compares by value. -/

/-- `StringTable`: the strings with their positions. -/
abbrev StringTable : Type := List (List Char × Nat)

/-- `StringTable.addString`. -/
def StringTable.addString (t : StringTable) (tempStr : List Char) : Option (Nat × StringTable) :=
  getOrAdd (fun a b => a = b) true t tempStr t.length

/-- `StringTable.getString`, for a position that is not negative. The table has the empty
string from the start, so `maxIndex` is one less than its length. -/
def StringTable.getString (t : StringTable) (index : Nat) : Option (List Char) :=
  let maxIndex := t.length - 1
  if maxIndex ≤ index then some [] else (t.map Prod.fst)[index]?

/-- `SouceFileTable`. -/
abbrev SouceFileTable : Type := List (Nat × SourceFile)

/-- `SouceFileTable.addSourceFile`. -/
def SouceFileTable.addSourceFile (t : SouceFileTable) (fileNameIndex filePathIndex : Nat)
    (type : Int) : Option (SourceFile × SouceFileTable) :=
  getOrAdd (fun a b => a = b) (fitsInt64 type) t filePathIndex
    ⟨filePathIndex, fileNameIndex, filePathIndex, type⟩

/-! ### Functions and locations

The keys of these two are objects of their own classes. Their `__eq__` is true of any two
objects, so a dictionary tells them apart by their hashes only. -/

/-- `FunctionTableKey`. -/
structure FunctionTableKey where
  filePath : Nat
  name : Nat
  deriving DecidableEq, Repr

/-- The string that `FunctionTableKey.__hash__` hashes. -/
def FunctionTableKey.str (self : FunctionTableKey) : List Char :=
  decimal self.filePath ++ ';' :: decimal self.name

/-- `FunctionTableKey.__eq__`, which compares the fields of `self` with themselves. -/
def FunctionTableKey.eq (self _other : FunctionTableKey) : Bool :=
  self.filePath = self.filePath ∧ self.name = self.name

/-- `LocationTableKey`. -/
structure LocationTableKey where
  functionId : Nat
  lineNo : Int
  deriving DecidableEq, Repr

/-- The string that `LocationTableKey.__hash__` hashes. -/
def LocationTableKey.str (self : LocationTableKey) : List Char :=
  decimal self.functionId ++ ';' :: decimal self.lineNo

/-- `LocationTableKey.__eq__`, which compares the fields of `self` with themselves. -/
def LocationTableKey.eq (self _other : LocationTableKey) : Bool :=
  self.functionId = self.functionId ∧ self.lineNo = self.lineNo

/-- `FunctionTable`. -/
abbrev FunctionTable : Type := List (FunctionTableKey × Function)

/-- `LocationTable`. -/
abbrev LocationTable : Type := List (LocationTableKey × Location)

section Hash

variable (hash : List Char → Int)

/-- `FunctionTable.addFunction`. A dictionary compares keys of the same hash by `__eq__`. -/
def FunctionTable.addFunction (t : FunctionTable) (sourceFile : SourceFile)
    (name systemName : Nat) (startLine : Int) : Option (Function × FunctionTable) :=
  getOrAdd (fun a b => hash a.str = hash b.str ∧ a.eq b) (fitsInt64 startLine) t
    ⟨sourceFile.filename, name⟩ ⟨t.length, name, systemName, sourceFile.id, startLine⟩

/-- `LocationTable.addLocation`. -/
def LocationTable.addLocation (t : LocationTable) (function : Function) (lineNo : Int) :
    Option (Location × LocationTable) :=
  getOrAdd (fun a b => hash a.str = hash b.str ∧ a.eq b) (fitsInt64 lineNo) t
    ⟨function.id, lineNo⟩ ⟨t.length, [⟨function.id, lineNo⟩]⟩

/-- The tables that a location is looked up in. -/
structure Tables where
  stringTable : StringTable
  souceFileTable : SouceFileTable
  functionTable : FunctionTable
  locationTable : LocationTable

namespace Tables

/-- `Profile.addSouceFile`. -/
def addSouceFile (b : Tables) (fileName filePath : List Char) (type : Int) :
    Option (SourceFile × Tables) := do
  let (fileNameIndex, strings) ← b.stringTable.addString fileName
  let (filePathIndex, strings) ← strings.addString filePath
  let (sourceFile, files) ← b.souceFileTable.addSourceFile fileNameIndex filePathIndex type
  return (sourceFile, { b with stringTable := strings, souceFileTable := files })

/-- `Profile.addFunction`. -/
def addFunction (b : Tables) (filePath name systemName : List Char) (startLine : Int) :
    Option (Function × Tables) := do
  let (sourceFile, b) ← b.addSouceFile filePath filePath 0
  let (nameIndex, strings) ← b.stringTable.addString name
  let (systemNameIndex, strings) ← strings.addString systemName
  let (function, functions) ←
    b.functionTable.addFunction hash sourceFile nameIndex systemNameIndex startLine
  return (function, { b with stringTable := strings, functionTable := functions })

/-- `Profile.addLocation`. -/
def addLocation (b : Tables) (filePath name systemName : List Char) (startLine lineNo : Int) :
    Option (Location × Tables) := do
  let (function, b) ← b.addFunction hash filePath name systemName startLine
  let (location, locations) ← b.locationTable.addLocation hash function lineNo
  return (location, { b with locationTable := locations })

/-- The key that `addFunction` looks up. -/
def functionKey (b : Tables) (filePath name : List Char) : Option FunctionTableKey := do
  let (sourceFile, b) ← b.addSouceFile filePath filePath 0
  let (nameIndex, _) ← b.stringTable.addString name
  return ⟨sourceFile.filename, nameIndex⟩

/-- The key that `addLocation` looks up. -/
def locationKey (b : Tables) (filePath name systemName : List Char) (startLine lineNo : Int) :
    Option LocationTableKey := do
  let (function, _) ← b.addFunction hash filePath name systemName startLine
  return ⟨function.id, lineNo⟩

end Tables

/-! ### Contexts

The objects of the table and the messages they fill are two lists, linked by positions. -/

/-- `Context`: a message, by its position, and the children that were added to it. -/
structure Context where
  dcontext : Nat
  childrenSet : List (Nat × Nat)
  deriving DecidableEq, Repr

/-- `ContextTable`: the messages, the `Context` objects, and the dictionary from ids to
these. -/
structure ContextTable where
  dcontexts : List DContext
  contexts : List Context
  table : List (Nat × Nat)

namespace ContextTable

/-- `Context.getId`. -/
def getId (t : ContextTable) (context : Nat) : Option Nat := do
  let self ← t.contexts[context]?
  let dcontext ← t.dcontexts[self.dcontext]?
  return dcontext.id

/-- `Context.addChild`. -/
def addChild (t : ContextTable) (context childDcontext : Nat) : Option (Nat × ContextTable) := do
  let self ← t.contexts[context]?
  let child ← t.dcontexts[childDcontext]?
  match self.childrenSet.lookup child.id with
  | some childContext => return (childContext, t)
  | none =>
    let childContext := t.contexts.length
    return (childContext, { t with
      dcontexts := t.dcontexts.modify self.dcontext fun dcontext =>
        { dcontext with childrenId := dcontext.childrenId ++ [child.id] }
      contexts := (t.contexts ++ [(⟨childDcontext, []⟩ : Context)]).modify context fun self =>
        { self with childrenSet := self.childrenSet ++ [(child.id, childContext)] } })

/-- `ContextTable.addContext`. -/
def addContext (t : ContextTable) (contextId : Nat) (location : Location)
    (parentContext : Option Nat) : Option (Nat × ContextTable) :=
  match t.table.lookup contextId with
  | some context => some (context, t)
  | none =>
    if fitsUint64 contextId then
      match parentContext with
      | none =>
        some (t.contexts.length,
          { dcontexts := t.dcontexts ++ [⟨contextId, location.id, 0, []⟩]
            contexts := t.contexts ++ [⟨t.dcontexts.length, []⟩]
            table := t.table ++ [(contextId, t.contexts.length)] })
      | some parent => do
        let parentId ← t.getId parent
        let dcontext : DContext := ⟨contextId, location.id, parentId, []⟩
        let t' := { t with dcontexts := t.dcontexts ++ [dcontext] }
        let (context, t') ← t'.addChild parent t.dcontexts.length
        return (context, { t' with table := t'.table ++ [(contextId, context)] })
    else none

end ContextTable

/-! ### The builder

The calls that the converter makes, `addMetricType` and `addSample`; a run of them is a fold. -/

/-- `MetricMsg`. -/
structure MetricMsg where
  intValue : Int
  uintValue : Int
  strValue : List Char
  deriving DecidableEq, Repr

/-- `Builder`, with its `Profile`. -/
structure Builder extends Tables where
  contextTable : ContextTable
  metricType : List MetricType
  sample : List Sample

namespace Builder

/-- `Builder()`. -/
def new : Builder := ⟨⟨[([], 0)], [], [], []⟩, ⟨[], [], []⟩, [], []⟩

/-- The message that is serialised. -/
def profile (b : Builder) : Profile where
  metricType := b.metricType
  sample := b.sample
  context := b.contextTable.dcontexts
  location := b.locationTable.map Prod.snd
  function := b.functionTable.map Prod.snd
  sourceFile := b.souceFileTable.map Prod.snd
  stringTable := b.stringTable.map Prod.fst

/-- `Builder.addMetricType`. -/
def addMetricType (b : Builder) (valueType : Int) (unit des : List Char) : Option Builder :=
  if fitsInt64 valueType then do
    let (unitIndex, strings) ← b.stringTable.addString unit
    let (desIndex, strings) ← strings.addString des
    return { b with
      stringTable := strings
      metricType := b.metricType ++ [⟨valueType, unitIndex, desIndex⟩] }
  else none

/-- `Profile.addContextFromMsg`, with `Profile.addContext`. -/
def addContextFromMsg (b : Builder) (contextMsg : ContextMsg) (parentContext : Option Nat) :
    Option (Nat × Builder) := do
  let (location, tables) ← b.toTables.addLocation hash contextMsg.filePath contextMsg.name
    contextMsg.systemName contextMsg.startLine contextMsg.lineNo
  let (context, contexts) ← b.contextTable.addContext contextMsg.contextId location parentContext
  return (context, { b with toTables := tables, contextTable := contexts })

/-- The loop of `addSample` over the contexts. -/
def addContexts (b : Builder) (curContext : Option Nat) :
    List ContextMsg → Option (Option Nat × Builder)
  | [] => some (curContext, b)
  | contextMsg :: contextMsgList => do
    let (context, b) ← b.addContextFromMsg hash contextMsg curContext
    b.addContexts (some context) contextMsgList

/-- The loop of `addSample` over the metrics. -/
def addMetrics (strings : StringTable) (metric : List Metric) :
    List MetricMsg → Option (List Metric × StringTable)
  | [] => some (metric, strings)
  | metricMsg :: metricList =>
    if fitsInt64 metricMsg.intValue ∧ fitsUint64 metricMsg.uintValue then do
      let (strIndex, strings) ← strings.addString metricMsg.strValue
      addMetrics strings (metric ++ [⟨metricMsg.intValue, metricMsg.uintValue, strIndex⟩]) metricList
    else none

/-- `Builder.addSample`. -/
def addSample (b : Builder) (contextMsgList : List ContextMsg) (metricList : List MetricMsg) :
    Option Builder := do
  match ← b.addContexts hash none contextMsgList with
  | (none, b) => return b
  | (some context, b) =>
    let contextId ← b.contextTable.getId context
    let (metric, strings) ← addMetrics b.stringTable [] metricList
    return { b with stringTable := strings, sample := b.sample ++ [⟨contextId, metric⟩] }

end Builder

/-- The calls of a builder. -/
inductive Call where
  | addMetricType (valueType : Int) (unit des : List Char)
  | addSample (contextMsgList : List ContextMsg) (metricList : List MetricMsg)

/-- One call. -/
def Builder.step (b : Builder) : Call → Option Builder
  | .addMetricType valueType unit des => b.addMetricType valueType unit des
  | .addSample contextMsgList metricList => b.addSample hash contextMsgList metricList

/-- Calls one after another. -/
def Builder.run (b : Builder) (calls : List Call) : Option Builder :=
  calls.foldlM (Builder.step hash) b

end Hash

end DataBuilder

end DroidPerf
