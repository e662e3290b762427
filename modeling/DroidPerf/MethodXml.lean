import DroidPerf.LineTables
import DroidPerf.Metrics

/-!
# DroidPerf.MethodXml

Methods as XML (`xml.cpp`, `util.h` and `code_cache.cpp`).

The attributes of an `XMLObj` are in an unordered map, which `getXMLStr` goes through in an
order that only the library knows. `XMLObj.Iterates` has all orders it can be.
-/

namespace DroidPerf

open Text

/-! ### Writing an object

An object is written with its attributes in one line and each child on lines of its own,
indented by one more level. -/

/-- An object as `getXMLStr` finds it: its attributes in the order of the unordered map, and
its children in the order of their ids. -/
inductive XMLNode where
  | node (tagName : List Char) (attrs : List (List Char × List Char)) (children : List XMLNode)

/-- What the loops over `_attr_map` and `_children_map` can find. -/
inductive XMLObj.Iterates : XMLObj → XMLNode → Prop
  | mk {obj : XMLObj} {attrs : List (List Char × List Char)} {children : List (Nat × XMLNode)} :
      (attrs.map Prod.fst).Nodup →
      (∀ key value, (key, value) ∈ attrs ↔ obj.attrMap key = some value) →
      (children.map Prod.fst).Pairwise (· < ·) →
      (∀ id, id ∈ children.map Prod.fst ↔ obj.childrenMap id ≠ none) →
      (∀ id child node, obj.childrenMap id = some child → (id, node) ∈ children →
        child.Iterates node) →
      obj.Iterates (.node obj.tagName attrs (children.map Prod.snd))

mutual

/-- `XMLObj::getXMLStr`. -/
def getXMLStr (indentNum : Nat) : XMLNode → List Char
  | .node tagName attrs children =>
    let indent := List.replicate indentNum ' '
    indent ++ '<' :: tagName ++ (attrs.flatMap fun elem => ' ' :: (elem.1 ++ '=' :: elem.2)) ++
      ['>', '\n'] ++ childrenStr (indentNum + 2) children ++
        indent ++ '<' :: '/' :: tagName ++ ['>', '\n']

/-- The loop over the children. -/
def childrenStr (indentNum : Nat) : List XMLNode → List Char
  | [] => []
  | elem :: children => getXMLStr indentNum elem ++ childrenStr indentNum children

end

/-! ### Methods

The attributes of a method are its names, its numbers and, for a compiled one, its addresses.
The line tables are children. -/

/-- The names of a `Method`. -/
structure MethodNames where
  methodName : List Char
  srcFile : List Char
  className : List Char
  deriving DecidableEq, Repr

/-- `InterpretMethod`. -/
structure InterpretMethod extends Method, MethodNames where
  methodId : Nat

/-- `CompiledMethod` with its tables and its names. -/
structure NamedMethod extends MappedMethod, MethodNames

/-- `formate_speical_char`. -/
def formateSpeicalChar (ori : List Char) : List Char :=
  let newStr := ori.map fun c => if c = '<' then '-' else c
  newStr.map fun c => if c = '>' then '-' else c

/-- A string that is passed on by `c_str`: it ends at its first NUL. -/
def cStr (s : List Char) : List Char := s.takeWhile fun c => c ≠ '\x00'

/-- A pointer that is written to a stream. -/
def pointerText (p : Nat) : List Char :=
  if p = 0 then ['0'] else '0' :: 'x' :: Nat.toDigits 16 p

/-- `SET_ATTR` for a name. -/
def XMLObj.setName (obj : XMLObj) (key : String) (name : List Char) : XMLObj :=
  obj.addAttr key.toList (cStr (formateSpeicalChar name))

/-- The object of a method, without its line tables. -/
def methodObj (names : MethodNames) (methodId : Nat) (version codeSize startLine startAddr : Int) :
    XMLObj :=
  let obj := (XMLObj.new "method").addAttr "id".toList (pointerText methodId)
  let obj := (obj.setAttr "version" version).setAttr "code_size" codeSize
  let obj := (obj.setAttr "start_line" startLine).setAttr "start_addr" startAddr
  ((obj.setName "name" names.methodName).setName "file" names.srcFile).setName "class"
    names.className

/-- The object of a range. -/
def rangeObj (elem : Range Nat Int) : XMLObj :=
  (((XMLObj.new "range").setAttr "start" elem.start).setAttr "end" elem.stop).setAttr "data"
    elem.data

/-- The loop over the ranges: a child for each, numbered from `i` on. -/
def addRanges : Nat → List (Range Nat Int) → XMLObj → XMLObj
  | _, [], obj => obj
  | i, elem :: rest, obj => addRanges (i + 1) rest (obj.addChild i (rangeObj elem))

/-- The object of a line table. -/
def tolineObj (type : String) (rs : RangeSet Nat Int) : XMLObj :=
  addRanges 0 rs.ranges ((XMLObj.new "toline").addAttr "type".toList type.toList)

/-- A line table is added as a child unless it is empty. -/
def addTable (type : String) (rs : RangeSet Nat Int) (st : XMLObj × Nat) : XMLObj × Nat :=
  if rs.isEmpty then st else (st.1.addChild st.2 (tolineObj type rs), st.2 + 1)

/-- `InterpretMethod::createXMLObj`. -/
def InterpretMethod.createXMLObj (m : InterpretMethod) : XMLObj :=
  let obj := methodObj m.toMethodNames m.methodId 0 0 (-1) 0
  (addTable "bci2line" m.bci2lineRangeset (obj, 0)).1

/-- `createXMLObj` for a `CompiledMethod`. -/
def NamedMethod.createXMLObj (m : NamedMethod) : XMLObj :=
  let obj := methodObj m.toMethodNames m.methodId m.version m.codeSize m.startLine m.startAddr
  let st := addTable "addr2line" m.addr2lineRangeset (obj, 0)
  (addTable "bci2line" m.bci2lineRangeset st).1

end DroidPerf
