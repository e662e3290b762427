import DroidPerf.Lib.Xml
import DroidPerf.MethodXml

/-!
# DroidPerf.MethodXmlSound

The text of a method is read back as the object it was written from, for names without the
characters that `formate_speical_char` forgets.

`addAttr` puts quotes around a value and `getXMLStr` writes it as it is, so a value has to be
read as itself between quotes (`Xml.isPlain`). The numbers are, and of a name `<` and `>` are
taken out; an ampersand, a quote and the white space that XML normalizes stay in.

First a general result: an object with names for tags and keys is read back exactly when all
its values are plain (`XMLNode.Plain.readsBack` by induction over the children,
`ReadsBack.plain` for the other direction). Then `createXMLObj` is followed through its calls
of `SET_ATTR` and `addChild` (`describesMethod_interpret`, `describesMethod_compiled`), and the
values left over are those of the names. `methodXml_iff` also shows that there is an order to
write an object in, so that it is not about objects that cannot be written.

The text is taken as characters, as a reader of the file has it. A name beyond U+FFFF comes
from the virtual machine as two surrogates of modified UTF-8 and is one character here; where
no such character and no U+0000 occur, `NamedOutput.mutf8_eq_utf8` says that the bytes are
those of the text.
-/

namespace DroidPerf

open Text

/-! ### The tree of an object

What a reader of the text should get: tags, keys with their values without the quotes, and the
children. -/

/-- A value in quotes, as `addAttr` keeps it. -/
def quoted (value : List Char) : List Char := '"' :: (value ++ ['"'])

/-- A value without its quotes. -/
def unquoted (value : List Char) : List Char := (value.drop 1).dropLast

/-- Quotes that are put on come off again. -/
@[simp] theorem unquoted_quoted (value : List Char) : unquoted (quoted value) = value := by
  simp [unquoted, quoted]

/-- The attributes with the values that were passed to `addAttr`. -/
def attrValues (attrs : List (List Char × List Char)) : List (List Char × List Char) :=
  attrs.map fun e => (e.1, unquoted e.2)

/-- The values without quotes have the keys that they had. -/
theorem map_fst_attrValues (attrs : List (List Char × List Char)) :
    (attrValues attrs).map Prod.fst = attrs.map Prod.fst := List.map_map

/-- What holds of the values without their quotes. -/
theorem forall_attrValues {attrs : List (List Char × List Char)}
    {p : List Char × List Char → Prop} :
    (∀ a ∈ attrValues attrs, p a) ↔ ∀ e ∈ attrs, p (e.1, unquoted e.2) :=
  List.forall_mem_map

mutual

/-- The element tree of an object. -/
def XMLNode.tree : XMLNode → Xml.Tree
  | .node tagName attrs children =>
    .node tagName (Xml.valueOf (attrValues attrs)) (XMLNode.trees children)

/-- The trees of the children. -/
def XMLNode.trees : List XMLNode → List Xml.Tree
  | [] => []
  | child :: children => child.tree :: XMLNode.trees children

end

/-- The text of an object is a well-formed document that is read as the object's tree. -/
def ReadsBack (indentNum : Nat) (node : XMLNode) : Prop :=
  Xml.Document (getXMLStr indentNum node) node.tree

/-- A key is a name and a value is in quotes. -/
structure QuotedAttr (key value : List Char) : Prop where
  isName : Xml.isName key = true
  quoted : value = DroidPerf.quoted (unquoted value)

/-- Attributes in quotes are written as XML has them. -/
theorem flatMap_quoted {attrs : List (List Char × List Char)}
    (h : ∀ e ∈ attrs, QuotedAttr e.1 e.2) :
    (attrs.flatMap fun elem => ' ' :: (elem.1 ++ '=' :: elem.2)) =
      (attrValues attrs).flatMap Xml.attrText := by
  rw [attrValues, List.flatMap_map]
  refine List.flatMap_congr fun e he => ?_
  have hvalue : e.2 = '"' :: (unquoted e.2 ++ ['"']) := (h e he).quoted
  rw [hvalue]
  simp [Xml.attrText, ← hvalue]

/-! ### Reading back

Two sides of one equivalence. Plain values are written as a document that is read as the tree;
and where that is so, a value that is not plain would have been read as another. -/

/-- Names for tags and keys, and values that are read as themselves. -/
inductive XMLNode.Plain : XMLNode → Prop
  | mk {tagName : List Char} {attrs : List (List Char × List Char)} {children : List XMLNode} :
      Xml.isName tagName = true → (attrs.map Prod.fst).Nodup →
      (∀ e ∈ attrs, QuotedAttr e.1 e.2 ∧ ∀ c ∈ unquoted e.2, Xml.isPlain c = true) →
      (∀ child ∈ children, child.Plain) → (XMLNode.node tagName attrs children).Plain

/-- The indentation of an element is white space. -/
theorem blank_replicate (n : Nat) : Xml.Blank (List.replicate n ' ') := by
  intro c hc
  rw [(List.mem_replicate.mp hc).2]
  rfl

/-- The line end between two elements is white space. -/
theorem blank_newline : Xml.Blank ['\n'] := by simp [Xml.Blank, Xml.isSpace]

/-- Children that are elements on lines of their own are the content of an element. -/
theorem content_childrenStr {indentNum : Nat} {gap : List Char} {children : List XMLNode}
    (h : ∀ child ∈ children, ∃ body,
      getXMLStr indentNum child = List.replicate indentNum ' ' ++ (body ++ ['\n']) ∧
        Xml.Element body child.tree) (hgap : Xml.Blank gap) :
    Xml.Content (childrenStr indentNum children ++ gap) (XMLNode.trees children) := by
  induction children with
  | nil =>
      have hempty := Xml.Content.blank hgap .nil
      rw [List.append_nil] at hempty
      rw [childrenStr, XMLNode.trees]
      exact hempty
  | cons child children ih =>
      obtain ⟨⟨body, hbody, helement⟩, hchildren⟩ := List.forall_mem_cons.mp h
      rw [childrenStr, XMLNode.trees, hbody, List.append_assoc, List.append_assoc,
        List.append_assoc]
      exact .blank (blank_replicate _) (.element helement (.blank blank_newline (ih hchildren)))

/-- The text of an object is one element on lines of its own. -/
theorem XMLNode.Plain.exists_element {node : XMLNode} (h : node.Plain) (indentNum : Nat) :
    ∃ body, getXMLStr indentNum node = List.replicate indentNum ' ' ++ (body ++ ['\n']) ∧
      Xml.Element body node.tree := by
  induction h generalizing indentNum with
  | @mk tagName attrs children hname hnodup hattrs _ ih =>
      have hcontent := content_childrenStr (fun child hchild => ih child hchild (indentNum + 2))
        (blank_replicate indentNum)
      have helement := Xml.element_of_plain hname
        (forall_attrValues.mpr fun e he => (hattrs e he).1.isName)
        (map_fst_attrValues attrs ▸ hnodup)
        (forall_attrValues.mpr fun e he => (hattrs e he).2)
        (hcontent.blank blank_newline)
      rw [XMLNode.tree]
      refine ⟨_, ?_, helement⟩
      rw [getXMLStr, flatMap_quoted fun e he => (hattrs e he).1]
      simp

/-- The text of a plain object is read as its tree. -/
theorem XMLNode.Plain.readsBack {node : XMLNode} (h : node.Plain) (indentNum : Nat) :
    ReadsBack indentNum node := by
  obtain ⟨body, htext, helement⟩ := h.exists_element indentNum
  have hmisc : ∀ gap : List Char, Xml.Blank gap → Xml.Misc gap := by
    intro gap hgap
    induction gap with
    | nil => exact .nil
    | cons c gap ih =>
        obtain ⟨hc, hgap⟩ := List.forall_mem_cons.mp hgap
        exact .space hc (ih hgap)
  rw [ReadsBack, htext]
  exact .mk (hmisc _ (blank_replicate _)) helement (hmisc _ blank_newline)

/-- The attributes of an object that is read back are plain. -/
theorem ReadsBack.plain {indentNum : Nat} {tagName : List Char}
    {attrs : List (List Char × List Char)} {children : List XMLNode}
    (h : ReadsBack indentNum (.node tagName attrs children)) (hname : Xml.isName tagName = true)
    (hnodup : (attrs.map Prod.fst).Nodup) (hattrs : ∀ e ∈ attrs, QuotedAttr e.1 e.2) :
    ∀ e ∈ attrs, ∀ c ∈ unquoted e.2, Xml.isPlain c = true := by
  rw [ReadsBack, getXMLStr, flatMap_quoted hattrs, XMLNode.tree] at h
  simp only [List.append_assoc, List.cons_append] at h
  have hkeys : ((attrValues attrs).map Prod.fst).Nodup := map_fst_attrValues attrs ▸ hnodup
  have hplain := h.plain_of_values (blank_replicate _) hname
    (forall_attrValues.mpr fun e he => (hattrs e he).isName) hkeys
    fun a ha => Xml.valueOf_of_mem hkeys ha
  exact forall_attrValues.mp hplain

/-! ### Objects

The same for an object with its maps, whatever order the attributes are written in. -/

namespace XMLObj

/-- Names for the tag and the keys, and values in quotes. -/
structure Quoted (obj : XMLObj) : Prop where
  tagName : Xml.isName obj.tagName = true
  attrs : ∀ key value, obj.attrMap key = some value → QuotedAttr key value

/-- An object whose values are read as themselves, as are those of its children. -/
inductive Plain : XMLObj → Prop
  | mk {obj : XMLObj} : obj.Quoted →
      (∀ key value, obj.attrMap key = some value → ∀ c ∈ unquoted value, Xml.isPlain c = true) →
      (∀ id child, obj.childrenMap id = some child → child.Plain) → obj.Plain

/-- A plain object has names for its tag and keys, and values in quotes. -/
theorem Plain.quoted {obj : XMLObj} : obj.Plain → obj.Quoted
  | .mk hquoted _ _ => hquoted

/-- The values of a plain object are read as themselves. -/
theorem Plain.values {obj : XMLObj} : obj.Plain → ∀ key value, obj.attrMap key = some value →
    ∀ c ∈ unquoted value, Xml.isPlain c = true
  | .mk _ hvalues _ => hvalues

/-- However a plain object is gone through, what is found is plain. -/
theorem Iterates.plain {obj : XMLObj} {node : XMLNode} (h : obj.Iterates node)
    (hplain : obj.Plain) : node.Plain := by
  induction h with
  | @mk obj attrs children hnodup hattrs _ hids _ ih =>
      obtain ⟨hquoted, hvalues, hchildren⟩ := hplain
      refine .mk hquoted.tagName hnodup (fun e he => ?_) fun node hnode => ?_
      · have hvalue := (hattrs e.1 e.2).mp he
        exact ⟨hquoted.attrs e.1 e.2 hvalue, hvalues e.1 e.2 hvalue⟩
      · obtain ⟨⟨id, node⟩, hmem, rfl⟩ := List.mem_map.mp hnode
        have hsome := (hids id).mp (List.mem_map_of_mem hmem)
        obtain ⟨child, hchild⟩ := Option.ne_none_iff_exists'.mp hsome
        exact ih id child node hchild hmem (hchildren id child hchild)

/-- An object with plain children is read back exactly when its own values are plain. -/
theorem readsBack_iff {obj : XMLObj} {node : XMLNode} (h : obj.Iterates node)
    (hquoted : obj.Quoted) (hchildren : ∀ id child, obj.childrenMap id = some child → child.Plain)
    (indentNum : Nat) :
    ReadsBack indentNum node ↔ ∀ key value, obj.attrMap key = some value →
      ∀ c ∈ unquoted value, Xml.isPlain c = true := by
  constructor
  · intro hread key value hvalue
    obtain ⟨hnodup, hattrs, -, -, -⟩ := h
    have hall := hread.plain hquoted.tagName hnodup
      fun e he => hquoted.attrs e.1 e.2 ((hattrs e.1 e.2).mp he)
    exact hall (key, value) ((hattrs key value).mpr hvalue)
  · intro hvalues
    exact (h.plain (.mk hquoted hvalues hchildren)).readsBack indentNum

/-! ### Building objects

What a call adds to an object, and that it keeps the object plain. -/

/-- An attribute is set, or overwritten. -/
theorem attrMap_addAttr (obj : XMLObj) (key value key' : List Char) :
    (obj.addAttr key value).attrMap key' =
      if key' = key then some (quoted value) else obj.attrMap key' := by
  unfold addAttr
  by_cases h : key' = key
  · rw [if_pos h, h]
    exact Function.update_self _ _ _
  · rw [if_neg h]
    exact Function.update_of_ne h _ _

/-- A child is set under its id, or overwritten. -/
theorem childrenMap_addChild (obj child : XMLObj) (id id' : Nat) :
    (obj.addChild id child).childrenMap id' =
      if id' = id then some child else obj.childrenMap id' :=
  Function.update_apply _ _ _ _

/-- An attribute with a name for its key is put in quotes by `addAttr`. -/
theorem Quoted.addAttr {obj : XMLObj} (h : obj.Quoted) (key : String)
    (hkey : Xml.isName key.toList = true) (value : List Char) :
    (obj.addAttr key.toList value).Quoted := by
  refine ⟨h.tagName, fun key' value' hvalue => ?_⟩
  rw [attrMap_addAttr] at hvalue
  split_ifs at hvalue with heq
  · cases hvalue
    exact ⟨heq ▸ hkey, by rw [unquoted_quoted]⟩
  · exact h.attrs key' value' hvalue

/-- An attribute with a plain value leaves the object plain. -/
theorem Plain.addAttr {obj : XMLObj} (h : obj.Plain) (key : String)
    (hkey : Xml.isName key.toList = true) {value : List Char}
    (hvalue : ∀ c ∈ value, Xml.isPlain c = true) : (obj.addAttr key.toList value).Plain := by
  obtain ⟨hquoted, hvalues, hchildren⟩ := h
  refine .mk (hquoted.addAttr key hkey value) (fun key' value' hsome => ?_) hchildren
  rw [attrMap_addAttr] at hsome
  split_ifs at hsome with heq
  · cases hsome
    rw [unquoted_quoted]
    exact hvalue
  · exact hvalues key' value' hsome

/-- A plain child joins plain children. -/
theorem plain_children_addChild {obj child : XMLObj}
    (h : ∀ id child, obj.childrenMap id = some child → child.Plain) (hchild : child.Plain)
    (id id' : Nat) (child' : XMLObj)
    (hsome : (obj.addChild id child).childrenMap id' = some child') : child'.Plain := by
  rw [childrenMap_addChild] at hsome
  split_ifs at hsome with heq
  · cases hsome
    exact hchild
  · exact h id' child' hsome

/-- An object stays plain with one more plain child. -/
theorem Plain.addChild {obj child : XMLObj} (h : obj.Plain) (hchild : child.Plain) (id : Nat) :
    (obj.addChild id child).Plain := by
  obtain ⟨hquoted, hvalues, hchildren⟩ := h
  exact .mk ⟨hquoted.tagName, hquoted.attrs⟩ hvalues
    (plain_children_addChild hchildren hchild id)

/-- A new object has no values at all. -/
theorem plain_new {tagName : String} (h : Xml.isName tagName.toList = true) :
    (XMLObj.new tagName).Plain := by
  refine .mk ⟨h, ?_⟩ ?_ ?_
  · rintro _ _ hnone
    cases hnone
  · rintro _ _ hnone
    cases hnone
  · rintro _ _ hnone
    cases hnone

end XMLObj

/-! ### Numbers

All numbers are printed with letters and digits, which are plain. -/

/-- The digits up to base 16 are read as themselves. -/
theorem isPlain_of_mem_toDigits {b n : Nat} {c : Char} (hb : 1 < b) (hb' : b ≤ 16)
    (h : c ∈ Nat.toDigits b n) : Xml.isPlain c = true := by
  have hdigit : ∀ d < 16, Xml.isPlain (Nat.digitChar d) = true := by decide
  induction n using Nat.strongRecOn with
  | ind n ih =>
      rw [Nat.toDigits_eq_if hb] at h
      split_ifs at h with hlt
      · rw [List.mem_singleton.mp h]
        exact hdigit n (by omega)
      · rcases List.mem_append.mp h with h | h
        · exact ih (n / b) (Nat.div_lt_self (by omega) hb) h
        · rw [List.mem_singleton.mp h]
          exact hdigit _ ((Nat.mod_lt n (by omega)).trans_le hb')

/-- A decimal number, with its sign, is read as itself. -/
theorem isPlain_of_mem_decimal {n : Int} {c : Char} (h : c ∈ decimal n) :
    Xml.isPlain c = true := by
  cases n with
  | ofNat n => exact isPlain_of_mem_toDigits (by decide) (by decide) h
  | negSucc n =>
      rcases List.mem_cons.mp h with rfl | h
      · rfl
      · exact isPlain_of_mem_toDigits (by decide) (by decide) h

/-- A pointer is read as itself. -/
theorem isPlain_of_mem_pointerText {p : Nat} {c : Char} (h : c ∈ pointerText p) :
    Xml.isPlain c = true := by
  unfold pointerText at h
  split_ifs at h
  · rw [List.mem_singleton.mp h]
    rfl
  · rcases List.mem_cons.mp h with rfl | h
    · rfl
    · rcases List.mem_cons.mp h with rfl | h
      · rfl
      · exact isPlain_of_mem_toDigits (by decide) (by decide) h

/-- A number that is set by `SET_ATTR` leaves the object plain. -/
theorem XMLObj.Plain.setAttr {obj : XMLObj} (h : obj.Plain) (key : String)
    (hkey : Xml.isName key.toList = true) (value : Int) : (obj.setAttr key value).Plain :=
  h.addAttr key hkey fun _ => isPlain_of_mem_decimal

/-! ### Line tables

The children of a method hold numbers and fixed texts, so they are always plain. -/

/-- The object of a range is plain, having numbers only. -/
theorem plain_rangeObj (elem : Range Nat Int) : (rangeObj elem).Plain := by
  have hnew : (XMLObj.new "range").Plain := XMLObj.plain_new (by decide)
  have hbounds := (hnew.setAttr "start" (by decide) elem.start).setAttr "end" (by decide) elem.stop
  exact hbounds.setAttr "data" (by decide) elem.data

/-- The ranges of a table leave its object plain. -/
theorem plain_addRanges (i : Nat) (ranges : List (Range Nat Int)) {obj : XMLObj} (h : obj.Plain) :
    (addRanges i ranges obj).Plain := by
  induction ranges generalizing i obj with
  | nil => exact h
  | cons elem ranges ih => exact ih (i + 1) (h.addChild (plain_rangeObj elem) i)

/-- The object of a line table is plain. -/
theorem plain_tolineObj {type : String} (htype : ∀ c ∈ type.toList, Xml.isPlain c = true)
    (rs : RangeSet Nat Int) : (tolineObj type rs).Plain := by
  have hnew : (XMLObj.new "toline").Plain := XMLObj.plain_new (by decide)
  exact plain_addRanges 0 _ (hnew.addAttr "type" (by decide) htype)

/-! ### Methods

What is left are the three names of a method. -/

/-- The characters of a name that are read back: XML has them, `formate_speical_char` knows
them where they matter, and they are not normalized. -/
def Recoverable (c : Char) : Prop :=
  Xml.isChar c = true ∧ c ≠ '&' ∧ c ≠ '"' ∧ (Xml.isSpace c = true → c = ' ')

instance (c : Char) : Decidable (Recoverable c) := inferInstanceAs (Decidable (_ ∧ _))

/-- Names of such characters; a NUL ends a name. -/
def MethodNames.Recoverable (names : MethodNames) : Prop :=
  ∀ name ∈ [names.methodName, names.srcFile, names.className],
    ∀ c ∈ cStr name, DroidPerf.Recoverable c

instance (names : MethodNames) : Decidable names.Recoverable :=
  decidable_of_iff (([names.methodName, names.srcFile, names.className].all fun name =>
      (cStr name).all fun c => decide (DroidPerf.Recoverable c)) = true) <| by
    simp only [List.all_eq_true, decide_eq_true_eq]
    exact Iff.rfl

/-- The value in the attribute is plain when the characters of the name are recoverable. -/
theorem plain_formate_iff (name : List Char) :
    (∀ c ∈ cStr (formateSpeicalChar name), Xml.isPlain c = true) ↔
      ∀ c ∈ cStr name, Recoverable c := by
  -- character by character: the two brackets become a `-`
  have hchar : ∀ c, Xml.isPlain (if (if c = '<' then '-' else c) = '>' then '-' else
      if c = '<' then '-' else c) = true ↔ Recoverable c := by
    intro c
    by_cases hlt : c = '<'
    · subst hlt
      decide
    · by_cases hgt : c = '>'
      · subst hgt
        decide
      · simp only [hlt, hgt, if_false]
        cases hspace : Xml.isSpace c <;> simp [Xml.isPlain, Recoverable, hlt, hspace]
  -- and none becomes the NUL at which the name ends
  have hnul : ∀ c, (if (if c = '<' then '-' else c) = '>' then '-' else
      if c = '<' then '-' else c) ≠ '\x00' ↔ c ≠ '\x00' := by
    intro c
    split_ifs with hlt hdash hgt
    · exact absurd hdash (by decide)
    · subst hlt
      decide
    · subst hgt
      decide
    · exact Iff.rfl
  unfold cStr formateSpeicalChar
  rw [List.map_map, List.takeWhile_map, List.forall_mem_map]
  simp only [Function.comp_def, hnul, hchar]

section

variable {names : MethodNames} {methodId : Nat} {version codeSize startLine startAddr : Int}

/-- The object of a method has names for its keys and values in quotes, whatever the names of
the method. -/
theorem quoted_methodObj :
    (methodObj names methodId version codeSize startLine startAddr).Quoted := by
  have hplain : (XMLObj.new "method").Plain := XMLObj.plain_new (by decide)
  have hid := hplain.quoted.addAttr "id" (by decide) (pointerText methodId)
  have hcode := (hid.addAttr "version" (by decide) (decimal version)).addAttr "code_size"
    (by decide) (decimal codeSize)
  have hstart := (hcode.addAttr "start_line" (by decide) (decimal startLine)).addAttr "start_addr"
    (by decide) (decimal startAddr)
  exact ((hstart.addAttr "name" (by decide) _).addAttr "file" (by decide) _).addAttr "class"
    (by decide) _

/-- The object of a method with recoverable names is plain. -/
theorem plain_methodObj (h : names.Recoverable) :
    (methodObj names methodId version codeSize startLine startAddr).Plain := by
  have hnames : ∀ name ∈ [names.methodName, names.srcFile, names.className],
      ∀ c ∈ cStr (formateSpeicalChar name), Xml.isPlain c = true :=
    fun name hname => (plain_formate_iff name).mpr (h name hname)
  simp only [List.forall_mem_cons] at hnames
  obtain ⟨hname, hfile, hclass, -⟩ := hnames
  have hnew : (XMLObj.new "method").Plain := XMLObj.plain_new (by decide)
  have hid := hnew.addAttr "id" (by decide) fun _ => isPlain_of_mem_pointerText (p := methodId)
  have hcode := (hid.setAttr "version" (by decide) version).setAttr "code_size" (by decide) codeSize
  have hstart := (hcode.setAttr "start_line" (by decide) startLine).setAttr "start_addr"
    (by decide) startAddr
  exact ((hstart.addAttr "name" (by decide) hname).addAttr "file" (by decide) hfile).addAttr
    "class" (by decide) hclass

end

/-- The attributes with the names. -/
theorem attrMap_methodObj (names : MethodNames) (methodId : Nat)
    (version codeSize startLine startAddr : Int) :
    let obj := methodObj names methodId version codeSize startLine startAddr
    obj.attrMap "name".toList = some (quoted (cStr (formateSpeicalChar names.methodName))) ∧
      obj.attrMap "file".toList = some (quoted (cStr (formateSpeicalChar names.srcFile))) ∧
      obj.attrMap "class".toList = some (quoted (cStr (formateSpeicalChar names.className))) := by
  simp [methodObj, XMLObj.setName, XMLObj.attrMap_addAttr]

/-- The object of a method, with children whose values are plain. -/
structure DescribesMethod (obj : XMLObj) (names : MethodNames) : Prop where
  quoted : obj.Quoted
  children : ∀ id child, obj.childrenMap id = some child → child.Plain
  attrs : ∃ methodId version codeSize startLine startAddr,
    obj.attrMap = (methodObj names methodId version codeSize startLine startAddr).attrMap

/-- Without children there is nothing more to it. -/
theorem describesMethod_methodObj (names : MethodNames) (methodId : Nat)
    (version codeSize startLine startAddr : Int) :
    DescribesMethod (methodObj names methodId version codeSize startLine startAddr) names :=
  ⟨quoted_methodObj, (fun _ _ h => by cases h), ⟨_, _, _, _, _, rfl⟩⟩

/-- A line table is one more plain child. -/
theorem DescribesMethod.addTable {names : MethodNames} {type : String}
    (htype : ∀ c ∈ type.toList, Xml.isPlain c = true) (rs : RangeSet Nat Int)
    {st : XMLObj × Nat} (h : DescribesMethod st.1 names) :
    DescribesMethod (addTable type rs st).1 names := by
  unfold DroidPerf.addTable
  split_ifs
  · exact h
  · exact ⟨⟨h.quoted.tagName, h.quoted.attrs⟩,
      XMLObj.plain_children_addChild h.children (plain_tolineObj htype rs) _, h.attrs⟩

/-- The object of an interpreted method describes it. -/
theorem describesMethod_interpret (m : InterpretMethod) :
    DescribesMethod m.createXMLObj m.toMethodNames :=
  (describesMethod_methodObj _ _ _ _ _ _).addTable (List.all_eq_true.mp rfl) _

/-- The object of a compiled method, with its second table, describes it. -/
theorem describesMethod_compiled (m : NamedMethod) :
    DescribesMethod m.createXMLObj m.toMethodNames :=
  ((describesMethod_methodObj _ _ _ _ _ _).addTable (List.all_eq_true.mp rfl) _).addTable
    (List.all_eq_true.mp rfl) _

/-- The text of a method is read back exactly when its names are recoverable. -/
theorem DescribesMethod.readsBack_iff {obj : XMLObj} {names : MethodNames}
    (h : DescribesMethod obj names) {node : XMLNode} (hnode : obj.Iterates node)
    (indentNum : Nat) : ReadsBack indentNum node ↔ names.Recoverable := by
  obtain ⟨methodId, version, codeSize, startLine, startAddr, hattrs⟩ := h.attrs
  rw [XMLObj.readsBack_iff hnode h.quoted h.children, hattrs]
  constructor
  · intro hvalues
    obtain ⟨hname, hfile, hclass⟩ :=
      attrMap_methodObj names methodId version codeSize startLine startAddr
    -- each name is the value of one attribute
    have hrecoverable : ∀ {key name : List Char},
        (methodObj names methodId version codeSize startLine startAddr).attrMap key =
          some (DroidPerf.quoted (cStr (formateSpeicalChar name))) →
            ∀ c ∈ cStr name, Recoverable c := by
      intro key name hkey
      have hplain := hvalues key _ hkey
      rw [unquoted_quoted] at hplain
      exact (plain_formate_iff name).mp hplain
    unfold MethodNames.Recoverable
    simp only [List.forall_mem_cons]
    exact ⟨hrecoverable hname, hrecoverable hfile, hrecoverable hclass, List.forall_mem_nil _⟩
  · intro hnames
    exact (plain_methodObj hnames).values

/-! ### Metrics

The other object that is written: its children hold the sums of the metrics. -/

/-- The child of a metric is plain. -/
theorem plain_createChildObj (i : Nat) (metricVal : MetricVal) :
    (createChildObj i metricVal).Plain := by
  have hnew : (XMLObj.new "metric").Plain := XMLObj.plain_new (by decide)
  have hid := hnew.setAttr "id" (by decide) i
  have hvalues : ∀ {obj : XMLObj} (value1 value2 : Int), obj.Plain →
      ((obj.setAttr "value1" value1).setAttr "value2" value2).Plain := fun value1 value2 h =>
    (h.setAttr "value1" (by decide) value1).setAttr "value2" (by decide) value2
  unfold createChildObj
  split_ifs
  · exact hvalues _ _ (hvalues _ _ hid)
  · exact hvalues _ _ hid
  · exact hvalues _ _ hid
  · exact hid

/-- The loop over the metrics leaves the object plain. -/
theorem plain_createLoop (i : Nat) (valList : List MetricVal) {q : XMLObj × Bool}
    (h : q.1.Plain) : (createLoop i valList q).1.Plain := by
  induction valList generalizing i q with
  | nil => exact h
  | cons metricVal valList ih =>
      rw [createLoop]
      split_ifs
      · exact ih (i + 1) h
      · exact ih (i + 1) (h.addChild (plain_createChildObj i metricVal) i)

/-- The object of a context's metrics has numbers only, and its text is always read back. -/
theorem metricsXml_readsBack {m : ContextMetrics} {obj : XMLObj} (h : createXMLObj m = some obj)
    {node : XMLNode} (hnode : obj.Iterates node) (indentNum : Nat) : ReadsBack indentNum node := by
  have hnew : (XMLObj.new "metrics").Plain := XMLObj.plain_new (by decide)
  have hloop := plain_createLoop 0 m.valList (q := (XMLObj.new "metrics", false)) hnew
  unfold createXMLObj at h
  dsimp only at h
  split_ifs at h
  cases h
  exact (hnode.plain hloop).readsBack indentNum

/-! ### Every object can be written

`Iterates` asks for lists that hold every key of a map once. For the objects of a method they
exist, as only finitely many attributes and children are ever added. -/

namespace XMLObj

/-- An object with finitely many attributes and children. -/
inductive Finite : XMLObj → Prop
  | mk {obj : XMLObj} : (∃ keys : List (List Char), ∀ key, obj.attrMap key ≠ none → key ∈ keys) →
      (∃ bound, ∀ id, obj.childrenMap id ≠ none → id < bound) →
      (∀ id child, obj.childrenMap id = some child → child.Finite) → obj.Finite

/-- The attributes under a list of keys, each once. -/
theorem exists_attrs (obj : XMLObj) (keys : List (List Char)) :
    ∃ attrs : List (List Char × List Char), (attrs.map Prod.fst).Nodup ∧
      ∀ key value, (key, value) ∈ attrs ↔ key ∈ keys ∧ obj.attrMap key = some value := by
  induction keys with
  | nil => exact ⟨[], List.nodup_nil, by simp⟩
  | cons key keys ih =>
      obtain ⟨attrs, hnodup, hattrs⟩ := ih
      -- a key that was seen before, or without a value, adds nothing
      by_cases hnew : key ∉ keys ∧ obj.attrMap key ≠ none
      · obtain ⟨hnew, hsome⟩ := hnew
        obtain ⟨value, hvalue⟩ := Option.ne_none_iff_exists'.mp hsome
        refine ⟨(key, value) :: attrs, List.nodup_cons.mpr ⟨?_, hnodup⟩, fun key' value' => ?_⟩
        · intro hmem
          obtain ⟨⟨key', value'⟩, ha, rfl⟩ := List.mem_map.mp hmem
          exact hnew ((hattrs key' value').mp ha).1
        · rw [List.mem_cons, List.mem_cons, hattrs]
          constructor
          · rintro (heq | ⟨hmem, hvalue'⟩)
            · cases heq
              exact ⟨.inl rfl, hvalue⟩
            · exact ⟨.inr hmem, hvalue'⟩
          · rintro ⟨rfl | hmem, hvalue'⟩
            · rw [hvalue] at hvalue'
              cases hvalue'
              exact .inl rfl
            · exact .inr ⟨hmem, hvalue'⟩
      · refine ⟨attrs, hnodup, fun key' value' => ?_⟩
        rw [hattrs, List.mem_cons]
        constructor
        · exact fun h => ⟨.inr h.1, h.2⟩
        · rintro ⟨rfl | hmem, hvalue⟩
          · have hmem : key' ∈ keys := by
              by_contra hmem
              exact hnew ⟨hmem, by simp [hvalue]⟩
            exact ⟨hmem, hvalue⟩
          · exact ⟨hmem, hvalue⟩

/-- The children with ids below a bound, in order. -/
theorem exists_children {obj : XMLObj}
    (h : ∀ id child, obj.childrenMap id = some child → ∃ node, child.Iterates node) (bound : Nat) :
    ∃ children : List (Nat × XMLNode), (children.map Prod.fst).Pairwise (· < ·) ∧
      (∀ id, id ∈ children.map Prod.fst ↔ id < bound ∧ obj.childrenMap id ≠ none) ∧
      ∀ id child node, obj.childrenMap id = some child → (id, node) ∈ children →
        child.Iterates node := by
  induction bound with
  | zero => exact ⟨[], .nil, by simp, by simp⟩
  | succ bound ih =>
      obtain ⟨children, hsorted, hids, hnodes⟩ := ih
      cases hlast : obj.childrenMap bound with
      | none =>
          refine ⟨children, hsorted, fun id => ?_, hnodes⟩
          rw [hids]
          constructor
          · exact fun h => ⟨h.1.trans (Nat.lt_succ_self bound), h.2⟩
          · rintro ⟨hlt, hsome⟩
            have hne : id ≠ bound := fun heq => hsome (heq ▸ hlast)
            exact ⟨by omega, hsome⟩
      | some child =>
          -- the child with the largest id comes last
          obtain ⟨node, hnode⟩ := h bound child hlast
          refine ⟨children ++ [(bound, node)], ?_, fun id => ?_,
            fun id child' node' hchild hmem => ?_⟩
          · rw [List.map_append, List.pairwise_append]
            refine ⟨hsorted, List.pairwise_singleton _ _, fun id hid id' hid' => ?_⟩
            rw [List.mem_singleton.mp hid']
            exact ((hids id).mp hid).1
          · rw [List.map_append, List.mem_append, hids]
            simp only [List.map_cons, List.map_nil, List.mem_singleton]
            constructor
            · rintro (⟨hlt, hsome⟩ | rfl)
              · exact ⟨by omega, hsome⟩
              · exact ⟨Nat.lt_succ_self _, by simp [hlast]⟩
            · rintro ⟨hlt, hsome⟩
              by_cases heq : id = bound
              · exact .inr heq
              · exact .inl ⟨by omega, hsome⟩
          · rcases List.mem_append.mp hmem with hmem | hmem
            · exact hnodes id child' node' hchild hmem
            · cases List.mem_singleton.mp hmem
              rw [hlast] at hchild
              cases hchild
              exact hnode

/-- `getXMLStr` has an order in which it can go through the object. -/
theorem Finite.exists_iterates {obj : XMLObj} (h : obj.Finite) : ∃ node, obj.Iterates node := by
  induction h with
  | @mk obj hkeys hbound _ ih =>
      obtain ⟨keys, hkeys⟩ := hkeys
      obtain ⟨bound, hbound⟩ := hbound
      obtain ⟨attrs, hnodup, hattrs⟩ := obj.exists_attrs keys
      obtain ⟨children, hsorted, hids, hnodes⟩ := exists_children ih bound
      refine ⟨_, .mk hnodup (fun key value => ?_) hsorted (fun id => ?_) hnodes⟩
      · rw [hattrs]
        exact and_iff_right_of_imp fun hvalue => hkeys key (by simp [hvalue])
      · rw [hids]
        exact and_iff_right_of_imp (hbound id)

/-- A new object has no attributes and no children. -/
theorem finite_new (tagName : String) : (XMLObj.new tagName).Finite :=
  .mk ⟨[], fun _ h => absurd rfl h⟩ ⟨0, fun _ h => absurd rfl h⟩ fun _ _ h => by cases h

/-- One more attribute leaves an object finite. -/
theorem Finite.addAttr {obj : XMLObj} (h : obj.Finite) (key value : List Char) :
    (obj.addAttr key value).Finite := by
  obtain ⟨⟨keys, hkeys⟩, hbound, hchildren⟩ := h
  refine .mk ⟨key :: keys, fun key' hsome => ?_⟩ hbound hchildren
  rw [attrMap_addAttr] at hsome
  split_ifs at hsome with heq
  · exact heq ▸ List.mem_cons_self
  · exact List.mem_cons_of_mem key (hkeys key' hsome)

/-- One more child, finite itself, leaves an object finite. -/
theorem Finite.addChild {obj child : XMLObj} (h : obj.Finite) (hchild : child.Finite) (id : Nat) :
    (obj.addChild id child).Finite := by
  obtain ⟨hkeys, ⟨bound, hbound⟩, hchildren⟩ := h
  refine .mk hkeys ⟨max bound (id + 1), fun id' hsome => ?_⟩ fun id' child' hsome => ?_
  · rw [childrenMap_addChild] at hsome
    split_ifs at hsome with heq
    · omega
    · exact (hbound id' hsome).trans_le (Nat.le_max_left _ _)
  · rw [childrenMap_addChild] at hsome
    split_ifs at hsome with heq
    · cases hsome
      exact hchild
    · exact hchildren id' child' hsome

end XMLObj

/-- The ranges of a table leave its object finite. -/
theorem finite_addRanges (i : Nat) (ranges : List (Range Nat Int)) {obj : XMLObj}
    (h : obj.Finite) : (addRanges i ranges obj).Finite := by
  induction ranges generalizing i obj with
  | nil => exact h
  | cons elem ranges ih =>
      have hrange : (rangeObj elem).Finite :=
        (((XMLObj.finite_new "range").addAttr _ _).addAttr _ _).addAttr _ _
      exact ih (i + 1) (h.addChild hrange i)

/-- A line table as a child leaves the object of a method finite. -/
theorem finite_addTable (type : String) (rs : RangeSet Nat Int) {st : XMLObj × Nat}
    (h : st.1.Finite) : (addTable type rs st).1.Finite := by
  have htable : (tolineObj type rs).Finite :=
    finite_addRanges 0 _ ((XMLObj.finite_new "toline").addAttr _ _)
  unfold addTable
  split_ifs
  · exact h
  · exact h.addChild htable _

/-- The object of a method is finite. -/
theorem finite_methodObj (names : MethodNames) (methodId : Nat)
    (version codeSize startLine startAddr : Int) :
    (methodObj names methodId version codeSize startLine startAddr).Finite := by
  have hid := (XMLObj.finite_new "method").addAttr "id".toList (pointerText methodId)
  have hcode := (hid.addAttr "version".toList (decimal version)).addAttr "code_size".toList
    (decimal codeSize)
  have hstart := (hcode.addAttr "start_line".toList (decimal startLine)).addAttr
    "start_addr".toList (decimal startAddr)
  exact ((hstart.addAttr "name".toList _).addAttr "file".toList _).addAttr "class".toList _

/-- The object of an interpreted method can be gone through. -/
theorem exists_iterates_interpret (m : InterpretMethod) : ∃ node, m.createXMLObj.Iterates node :=
  (finite_addTable _ _ (finite_methodObj _ _ _ _ _ _)).exists_iterates

/-- The object of a compiled method can be gone through. -/
theorem exists_iterates_compiled (m : NamedMethod) : ∃ node, m.createXMLObj.Iterates node :=
  (finite_addTable _ _ (finite_addTable _ _ (finite_methodObj _ _ _ _ _ _))).exists_iterates

/-- **Methods as XML.** The object of a method, interpreted or compiled, can be written, and in
whatever order its attributes are written, the text is a well-formed document that is read as
the object exactly when the method's names are recoverable. Names are text; for their bytes see
the head of this module. -/
theorem methodXml_iff (indentNum : Nat) :
    (∀ m : InterpretMethod, (∃ node, m.createXMLObj.Iterates node) ∧
      ∀ node, m.createXMLObj.Iterates node →
        (ReadsBack indentNum node ↔ m.toMethodNames.Recoverable)) ∧
    ∀ m : NamedMethod, (∃ node, m.createXMLObj.Iterates node) ∧
      ∀ node, m.createXMLObj.Iterates node →
        (ReadsBack indentNum node ↔ m.toMethodNames.Recoverable) :=
  ⟨fun m => ⟨exists_iterates_interpret m,
      fun _ h => (describesMethod_interpret m).readsBack_iff h indentNum⟩,
    fun m => ⟨exists_iterates_compiled m,
      fun _ h => (describesMethod_compiled m).readsBack_iff h indentNum⟩⟩

/-- A method without line numbers. -/
def nativeMethod (methodName : List Char) : InterpretMethod where
  isNative := true
  bci2lineRangeset := .empty
  methodName := methodName
  srcFile := ['A', '.', 'j', 'a', 'v', 'a']
  className := ['A']
  methodId := 0x7f0010

/-- A constructor is read back: the angle brackets of its name are replaced. -/
theorem methodXml_iff_init : ∃ node,
    (nativeMethod ['<', 'i', 'n', 'i', 't', '>']).createXMLObj.Iterates node ∧
      ReadsBack 0 node := by
  obtain ⟨⟨node, hnode⟩, hread⟩ :=
    (methodXml_iff 0).1 (nativeMethod ['<', 'i', 'n', 'i', 't', '>'])
  exact ⟨node, hnode, (hread node hnode).mpr (by decide +kernel)⟩

/-- A method `a&b` is not. -/
theorem methodXml_not_read_back : ¬ ∀ (m : InterpretMethod) (node : XMLNode),
    m.createXMLObj.Iterates node → ReadsBack 0 node := by
  intro hall
  obtain ⟨node, hnode⟩ := exists_iterates_interpret (nativeMethod ['a', '&', 'b'])
  have hread := hall _ node hnode
  have hnames := ((describesMethod_interpret _).readsBack_iff hnode 0).mp hread
  have hnot : ¬ (nativeMethod ['a', '&', 'b']).toMethodNames.Recoverable := by decide +kernel
  exact hnot hnames

end DroidPerf
