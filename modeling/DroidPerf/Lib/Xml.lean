import DroidPerf.Lib.CText
import Mathlib.Data.List.Infix

/-!
# XML

The grammar of XML for documents without a declaration and a document type: elements,
attributes, references and character data, comments, processing instructions and CDATA
sections.

A document is read as a tree of elements with their names, attributes and child elements.
Attribute values are normalized: white space other than a blank is read as a blank.

The grammar is a relation between text and what it is read as, so a text may be read in several
ways until shown otherwise. Two results carry what is needed of it. Text that is written from a
tree whose values are plain is read as the tree (`element_of_plain`). Conversely, if a text
that begins with a start tag as it is written is read with the values that were written, these
are plain (`Document.plain_of_values`): an ampersand would begin a reference, which stands for
fewer characters than it has, a quote would end the value before its time, and other white
space would come back as a blank. This direction follows the reader through the start tag,
attribute by attribute, and needs that names, white space and values end where they were made
to end.
-/

namespace Xml

/-! ### Characters and names

The classes of the grammar, as intervals of code points. -/

/-- White space. -/
def isSpace (c : Char) : Bool := c = ' ' ∨ c = '\t' ∨ c = '\n' ∨ c = '\r'

/-- The code points of a character class, as intervals. -/
def within (ranges : List (Nat × Nat)) (c : Char) : Bool :=
  ranges.any fun r => decide (r.1 ≤ c.toNat ∧ c.toNat ≤ r.2)

/-- The characters of a document. -/
def isChar (c : Char) : Bool :=
  within [(0x9, 0xA), (0xD, 0xD), (0x20, 0xD7FF), (0xE000, 0xFFFD), (0x10000, 0x10FFFF)] c

/-- The characters that start a name. -/
def isNameStart (c : Char) : Bool :=
  within [(0x3A, 0x3A), (0x41, 0x5A), (0x5F, 0x5F), (0x61, 0x7A), (0xC0, 0xD6), (0xD8, 0xF6),
    (0xF8, 0x2FF), (0x370, 0x37D), (0x37F, 0x1FFF), (0x200C, 0x200D), (0x2070, 0x218F),
    (0x2C00, 0x2FEF), (0x3001, 0xD7FF), (0xF900, 0xFDCF), (0xFDF0, 0xFFFD), (0x10000, 0xEFFFF)] c

/-- The characters of a name. -/
def isNameChar (c : Char) : Bool :=
  isNameStart c || within [(0x2D, 0x2E), (0x30, 0x39), (0xB7, 0xB7), (0x300, 0x36F),
    (0x203F, 0x2040)] c

/-- A name. -/
def isName : List Char → Bool
  | [] => false
  | c :: s => isNameStart c && s.all isNameChar

/-- White space or nothing. -/
def Blank (s : List Char) : Prop := ∀ c ∈ s, isSpace c = true

/-! ### References and attributes

A reference is read as one character. Between quotes there are characters and references,
without the quote itself. -/

/-- A reference and the character it stands for. -/
inductive Reference : List Char → Char → Prop
  | lt : Reference ['&', 'l', 't', ';'] '<'
  | gt : Reference ['&', 'g', 't', ';'] '>'
  | amp : Reference ['&', 'a', 'm', 'p', ';'] '&'
  | apos : Reference ['&', 'a', 'p', 'o', 's', ';'] '\''
  | quot : Reference ['&', 'q', 'u', 'o', 't', ';'] '"'
  | decimal {digits : List Char} {c : Char} : digits ≠ [] → digits.all Char.isDigit = true →
      Nat.ofDigitChars 10 digits 0 = c.toNat → isChar c = true →
      Reference ('&' :: '#' :: (digits ++ [';'])) c
  | hex {digits : List Char} {c : Char} : CText.HexNumber digits →
      CText.hexValue digits = c.toNat → isChar c = true →
      Reference ('&' :: '#' :: 'x' :: (digits ++ [';'])) c

/-- The text between the quotes of an attribute, and the value it is read as. -/
inductive AttText (quote : Char) : List Char → List Char → Prop
  | nil : AttText quote [] []
  | char {c : Char} {raw value : List Char} : isChar c = true → c ≠ '<' → c ≠ '&' → c ≠ quote →
      (isSpace c = true → c = ' ') → AttText quote raw value →
      AttText quote (c :: raw) (c :: value)
  | space {c : Char} {raw value : List Char} : c = '\t' ∨ c = '\n' →
      AttText quote raw value → AttText quote (c :: raw) (' ' :: value)
  | cr {raw value : List Char} : raw.head? ≠ some '\n' → AttText quote raw value →
      AttText quote ('\r' :: raw) (' ' :: value)
  | crlf {raw value : List Char} : AttText quote raw value →
      AttText quote ('\r' :: '\n' :: raw) (' ' :: value)
  | reference {ref raw value : List Char} {c : Char} : Reference ref c →
      AttText quote raw value → AttText quote (ref ++ raw) (c :: value)

/-- A name with its value. -/
inductive Attribute : List Char → List Char × List Char → Prop
  | mk {name gap gap' raw value : List Char} {quote : Char} : isName name = true → Blank gap →
      Blank gap' → quote = '"' ∨ quote = '\'' → AttText quote raw value →
      Attribute (name ++ (gap ++ '=' :: (gap' ++ quote :: (raw ++ [quote])))) (name, value)

/-- The attributes of a tag, each behind white space. -/
inductive Attributes : List Char → List (List Char × List Char) → Prop
  | nil : Attributes [] []
  | cons {gap text rest : List Char} {a : List Char × List Char}
      {atts : List (List Char × List Char)} : gap ≠ [] → Blank gap → Attribute text a →
      Attributes rest atts → Attributes (gap ++ (text ++ rest)) (a :: atts)

/-- The value of an attribute. -/
def valueOf (atts : List (List Char × List Char)) (key : List Char) : Option (List Char) :=
  List.lookup key atts

/-- A start tag without its end, and its name and attributes. No two attributes have one
name. -/
inductive Opening : List Char → List Char → List (List Char × List Char) → Prop
  | mk {name text gap : List Char} {atts : List (List Char × List Char)} : isName name = true →
      Attributes text atts → (atts.map Prod.fst).Nodup → Blank gap →
      Opening ('<' :: (name ++ (text ++ gap))) name atts

/-! ### Elements

Elements hold text, and child elements among it; the text is not kept. -/

/-- What a document is read as. The order of attributes does not matter. -/
inductive Tree where
  | node (name : List Char) (atts : List Char → Option (List Char)) (children : List Tree)

/-- Comments and processing instructions. -/
inductive Remark : List Char → Prop
  | comment {s : List Char} : s.all isChar = true → ¬ ['-', '-'] <:+: s →
      s.getLast? ≠ some '-' → Remark ('<' :: '!' :: '-' :: '-' :: (s ++ ['-', '-', '>']))
  | instruction {name s : List Char} : isName name = true →
      name.map Char.toLower ≠ ['x', 'm', 'l'] → s.all isChar = true → ¬ ['?', '>'] <:+: s →
      (∀ c ∈ s.head?, isSpace c = true) → Remark ('<' :: '?' :: (name ++ (s ++ ['?', '>'])))

mutual

/-- The text of an element. -/
inductive Element : List Char → Tree → Prop
  | tags {opening name gap content : List Char} {atts : List (List Char × List Char)}
      {children : List Tree} : Opening opening name atts → Content content children → Blank gap →
      Element (opening ++ '>' :: (content ++ '<' :: '/' :: (name ++ (gap ++ ['>']))))
        (.node name (valueOf atts) children)
  | empty {opening name : List Char} {atts : List (List Char × List Char)} :
      Opening opening name atts → Element (opening ++ ['/', '>']) (.node name (valueOf atts) [])

/-- The text between the tags of an element, and the child elements in it. -/
inductive Content : List Char → List Tree → Prop
  | nil : Content [] []
  | char {c : Char} {s : List Char} {children : List Tree} : isChar c = true → c ≠ '<' → c ≠ '&' →
      ¬ [']', ']', '>'] <+: c :: s → Content s children → Content (c :: s) children
  | reference {ref s : List Char} {c : Char} {children : List Tree} : Reference ref c →
      Content s children → Content (ref ++ s) children
  | cdata {data s : List Char} {children : List Tree} : data.all isChar = true →
      ¬ [']', ']', '>'] <:+: data → Content s children →
      Content ('<' :: '!' :: ("[CDATA[".toList ++ (data ++ ([']', ']', '>'] ++ s)))) children
  | remark {remark s : List Char} {children : List Tree} : Remark remark → Content s children →
      Content (remark ++ s) children
  | element {text s : List Char} {child : Tree} {children : List Tree} : Element text child →
      Content s children → Content (text ++ s) (child :: children)

end

/-- What may stand around the element of a document. -/
inductive Misc : List Char → Prop
  | nil : Misc []
  | space {c : Char} {s : List Char} : isSpace c = true → Misc s → Misc (c :: s)
  | remark {remark s : List Char} : Remark remark → Misc s → Misc (remark ++ s)

/-- A well-formed document and the tree it is read as. -/
inductive Document : List Char → Tree → Prop
  | mk {before text after : List Char} {tree : Tree} : Misc before → Element text tree →
      Misc after → Document (before ++ (text ++ after)) tree

/-! ### How text falls apart

A text that begins with a run of characters of one kind, with another kind behind it, does so
in one way only. -/

/-- A run of one kind of characters ends in one place only. -/
theorem run_unique {p : Char → Bool} {s s' t t' : List Char} (hs : ∀ c ∈ s, p c = true)
    (hs' : ∀ c ∈ s', p c = true) (ht : ∀ c ∈ t.head?, p c = false)
    (ht' : ∀ c ∈ t'.head?, p c = false) (h : s ++ t = s' ++ t') : s = s' ∧ t = t' := by
  have htake : ∀ {u v : List Char}, (∀ c ∈ u, p c = true) → (∀ c ∈ v.head?, p c = false) →
      (u ++ v).takeWhile p = u := by
    intro u v hu hv
    rw [List.takeWhile_append_of_pos hu]
    cases v with
    | nil => exact List.append_nil u
    | cons c v => rw [List.takeWhile_cons_of_neg (by simp [hv c rfl]), List.append_nil]
  have heq : s = s' := by rw [← htake hs ht, h, htake hs' ht']
  subst heq
  exact ⟨rfl, List.append_cancel_left h⟩

/-- White space is in no name. -/
theorem not_isNameChar_of_isSpace {c : Char} (h : isSpace c = true) : isNameChar c = false := by
  have h : c = ' ' ∨ c = '\t' ∨ c = '\n' ∨ c = '\r' := by simpa [isSpace] using h
  rcases h with rfl | rfl | rfl | rfl <;> rfl

/-- A name has a first character. -/
theorem exists_of_isName {name : List Char} (h : isName name = true) :
    ∃ c s, name = c :: s ∧ isNameStart c = true ∧ ∀ d ∈ name, isNameChar d = true := by
  cases name with
  | nil => cases h
  | cons c s =>
      obtain ⟨hc, hs⟩ := Bool.and_eq_true_iff.mp h
      refine ⟨c, s, rfl, hc, List.forall_mem_cons.mpr ⟨?_, List.all_eq_true.mp hs⟩⟩
      rw [isNameChar, hc, Bool.true_or]

/-- A name ends where something else begins. -/
theorem name_unique {name name' t t' : List Char} (h : isName name = true)
    (h' : isName name' = true) (ht : ∀ c ∈ t.head?, isNameChar c = false)
    (ht' : ∀ c ∈ t'.head?, isNameChar c = false) (heq : name ++ t = name' ++ t') :
    name = name' ∧ t = t' := by
  obtain ⟨_, _, _, _, hall⟩ := exists_of_isName h
  obtain ⟨_, _, _, _, hall'⟩ := exists_of_isName h'
  exact run_unique hall hall' ht ht' heq

/-! ### Values that are read as themselves

A value between double quotes is read as itself exactly if all its characters are plain. The
length shows it: a reference has at least two characters more than what it stands for. -/

/-- The characters that are read as themselves between double quotes. -/
def isPlain (c : Char) : Bool :=
  isChar c && decide (c ≠ '<' ∧ c ≠ '&' ∧ c ≠ '"' ∧ (isSpace c = true → c = ' '))

/-- A reference is longer than a character. -/
theorem Reference.two_le_length {ref : List Char} {c : Char} (h : Reference ref c) :
    2 ≤ ref.length := by
  cases h <;> simp

/-- Plain text is its own value. -/
theorem attText_of_plain {value : List Char} (h : ∀ c ∈ value, isPlain c = true) :
    AttText '"' value value := by
  induction value with
  | nil => exact .nil
  | cons c value ih =>
      obtain ⟨hc, hvalue⟩ := List.forall_mem_cons.mp h
      simp only [isPlain, Bool.and_eq_true, decide_eq_true_eq] at hc
      obtain ⟨hchar, hlt, hamp, hquote, hspace⟩ := hc
      exact .char hchar hlt hamp hquote hspace (ih hvalue)

/-- A value is never longer than its text, and only plain text is its own value. -/
theorem AttText.length_le {raw value : List Char} (h : AttText '"' raw value) :
    value.length ≤ raw.length ∧ (value = raw → ∀ c ∈ raw, isPlain c = true) := by
  induction h with
  | nil => exact ⟨Nat.le_refl _, fun _ c hc => by cases hc⟩
  | char hchar hlt hamp hquote hspace _ ih =>
      refine ⟨Nat.succ_le_succ ih.1, fun heq => List.forall_mem_cons.mpr ⟨?_, ?_⟩⟩
      · simp only [isPlain, Bool.and_eq_true, decide_eq_true_eq]
        exact ⟨hchar, hlt, hamp, hquote, hspace⟩
      · exact ih.2 (List.cons.inj heq).2
  | space hc _ ih =>
      refine ⟨Nat.succ_le_succ ih.1, fun heq => ?_⟩
      rcases hc with rfl | rfl <;> exact absurd (List.cons.inj heq).1 (by decide)
  | cr _ _ ih =>
      exact ⟨Nat.succ_le_succ ih.1, fun heq => absurd (List.cons.inj heq).1 (by decide)⟩
  | crlf _ ih =>
      refine ⟨?_, fun heq => absurd (List.cons.inj heq).1 (by decide)⟩
      simp only [List.length_cons]
      omega
  | reference href _ ih =>
      have hlen := href.two_le_length
      refine ⟨?_, fun heq => ?_⟩
      · simp only [List.length_cons, List.length_append]
        omega
      · have hlong := congrArg List.length heq
        simp only [List.length_cons, List.length_append] at hlong
        omega

/-- No reference holds a quote. -/
theorem Reference.quote_notMem {ref : List Char} {c : Char} (h : Reference ref c) :
    '"' ∉ ref := by
  cases h with
  | @decimal digits _ _ hdigits _ _ =>
      have hquote : '"' ∉ digits := fun hmem => by
        have hdigit := List.all_eq_true.mp hdigits _ hmem
        cases hdigit
      simp [hquote]
  | hex hdigits _ _ =>
      have hquote := hdigits.notMem (c := '"') rfl
      simp [hquote]
  | _ => decide

/-- There is no quote between the quotes. -/
theorem AttText.quote_notMem {raw value : List Char} (h : AttText '"' raw value) :
    '"' ∉ raw := by
  induction h with
  | nil => exact List.not_mem_nil
  | char _ _ _ hne _ _ ih => exact fun hmem => (List.mem_cons.mp hmem).elim (hne ·.symm) ih
  | space hc _ ih =>
      intro hmem
      rcases List.mem_cons.mp hmem with rfl | hmem
      · revert hc
        decide
      · exact ih hmem
  | cr _ _ ih => simpa using ih
  | crlf _ ih => simpa using ih
  | reference href _ ih => exact fun hmem => (List.mem_append.mp hmem).elim href.quote_notMem ih

/-- When the value between the quotes is the text that was put there, the text is plain: a
quote in it would have ended the value. -/
theorem AttText.plain_of_eq {raw value rest text : List Char} (h : AttText '"' raw value)
    (htext : raw ++ '"' :: rest = value ++ '"' :: text) :
    raw = value ∧ rest = text ∧ ∀ c ∈ value, isPlain c = true := by
  have hlen := h.length_le
  have hraw : raw = value := by
    rcases List.append_eq_append_iff.mp htext with ⟨u, rfl, -⟩ | ⟨u, rfl, hu⟩
    · rw [List.length_append] at hlen
      have hnil : u = [] := List.eq_nil_of_length_eq_zero (by omega)
      rw [hnil, List.append_nil]
    · cases u with
      | nil => exact List.append_nil value
      | cons c u =>
          have hc : '"' = c := (List.cons.inj hu).1
          exact absurd (List.mem_append_right value (hc ▸ List.mem_cons_self)) h.quote_notMem
  subst hraw
  exact ⟨rfl, (List.cons.inj (List.append_cancel_left htext)).2, hlen.2 rfl⟩

/-! ### The start tag

A start tag as it is written has one blank before each attribute and double quotes around each
value. The grammar would allow more, so the reader's attributes are matched with the written
ones from left to right. -/

/-- An attribute in double quotes, as it is written. -/
def attrText (a : List Char × List Char) : List Char :=
  ' ' :: (a.1 ++ '=' :: '"' :: (a.2 ++ ['"']))

/-- What follows a name is not part of it. -/
theorem Blank.head_not_name {gap rest : List Char} (hgap : Blank gap)
    (hrest : ∀ c ∈ rest.head?, isNameChar c = false) :
    ∀ c ∈ (gap ++ rest).head?, isNameChar c = false := by
  cases gap with
  | nil => exact hrest
  | cons d gap =>
      rintro c hc
      cases hc
      exact not_isNameChar_of_isSpace (hgap _ List.mem_cons_self)

/-- There is no white space in front of something else. -/
theorem Blank.of_append_eq {gap t t' : List Char} {c c' : Char} (hgap : Blank gap)
    (hc : isSpace c = false) (hc' : isSpace c' = false) (h : gap ++ c :: t = c' :: t') :
    gap = [] ∧ c = c' ∧ t = t' := by
  have hhead : ∀ {d : Char} {u : List Char}, isSpace d = false →
      ∀ e ∈ (d :: u).head?, isSpace e = false := by
    intro d u hd e he
    cases he
    exact hd
  have h : gap ++ c :: t = [] ++ c' :: t' := h
  obtain ⟨hnil, htail⟩ := run_unique hgap (List.forall_mem_nil _) (hhead hc) (hhead hc') h
  exact ⟨hnil, List.cons.inj htail⟩

/-- The first attribute of a text that begins with an attribute as it is written. -/
theorem Attribute.of_attrText {key value text rest more : List Char}
    {a : List Char × List Char} (hkey : isName key = true) (h : Attribute text a)
    (htext : text ++ rest = key ++ '=' :: '"' :: (value ++ '"' :: more)) :
    a.1 = key ∧ (a.2 = value → rest = more ∧ ∀ c ∈ value, isPlain c = true) := by
  obtain ⟨hname, hgap, hgap', hquote, hraw⟩ := h
  rename_i name gap gap' raw value' quote
  have hequals : ∀ {u : List Char}, ∀ c ∈ ('=' :: u).head?, isNameChar c = false := by
    intro u c hc
    cases hc
    rfl
  have hspace : isSpace quote = false := by
    rcases hquote with rfl | rfl <;> rfl
  simp only [List.append_assoc, List.cons_append] at htext
  obtain ⟨rfl, hbehind⟩ := name_unique hname hkey (hgap.head_not_name hequals) hequals htext
  obtain ⟨rfl, -, hvalues⟩ := hgap.of_append_eq rfl rfl hbehind
  obtain ⟨rfl, rfl, hquoted⟩ := hgap'.of_append_eq hspace rfl hvalues
  refine ⟨rfl, fun hvalue => ?_⟩
  have hvalue : value' = value := hvalue
  subst hvalue
  obtain ⟨-, hrest, hplain⟩ := hraw.plain_of_eq hquoted
  exact ⟨hrest, hplain⟩

/-- A name does not start with white space. -/
theorem isSpace_of_isNameStart {c : Char} (h : isNameStart c = true) : isSpace c = false := by
  by_contra hspace
  have hname := not_isNameChar_of_isSpace (Bool.eq_true_of_not_eq_false hspace)
  rw [isNameChar, h] at hname
  cases hname

/-- An attribute starts with its name. -/
theorem Attribute.exists_cons {text : List Char} {a : List Char × List Char}
    (h : Attribute text a) : ∃ c t, text = c :: t ∧ isSpace c = false := by
  obtain ⟨hname, -, -, -, -⟩ := h
  obtain ⟨c, s, rfl, hc, -⟩ := exists_of_isName hname
  exact ⟨c, _, rfl, isSpace_of_isNameStart hc⟩

/-- The first attribute has its value. -/
theorem valueOf_cons_self (a : List Char × List Char) (atts : List (List Char × List Char)) :
    valueOf (a :: atts) a.1 = some a.2 := by
  rw [valueOf, List.lookup_cons, beq_self_eq_true]

/-- Any other key has its value from the attributes behind. -/
theorem valueOf_cons_of_ne {a : List Char × List Char} {key : List Char} (h : key ≠ a.1)
    (atts : List (List Char × List Char)) : valueOf (a :: atts) key = valueOf atts key := by
  rw [valueOf, List.lookup_cons, beq_false_of_ne h]
  rfl

/-- Attributes with different names have their values. -/
theorem valueOf_of_mem {atts : List (List Char × List Char)} (hnodup : (atts.map Prod.fst).Nodup)
    {a : List Char × List Char} (ha : a ∈ atts) : valueOf atts a.1 = some a.2 := by
  induction atts with
  | nil => cases ha
  | cons b atts ih =>
      obtain ⟨hnew, hnodup⟩ := List.nodup_cons.mp hnodup
      rcases List.mem_cons.mp ha with rfl | ha
      · exact valueOf_cons_self a atts
      · have hother : a.1 ≠ b.1 := fun heq => hnew (heq ▸ List.mem_map_of_mem ha)
        rw [valueOf_cons_of_ne hother]
        exact ih hnodup ha

/-- A tag whose text is that of attributes as they are written has their values only if these
are plain. -/
theorem Attributes.plain_of_values {written atts : List (List Char × List Char)}
    {text tail rest : List Char} (hkeys : ∀ a ∈ written, isName a.1 = true)
    (hnodup : (written.map Prod.fst).Nodup) (h : Attributes text atts)
    (htext : text ++ tail = written.flatMap attrText ++ '>' :: rest)
    (hvalues : ∀ a ∈ written, valueOf atts a.1 = some a.2) :
    ∀ a ∈ written, ∀ c ∈ a.2, isPlain c = true := by
  -- the induction is on the attributes as they are written
  induction written generalizing text atts with
  | nil => exact List.forall_mem_nil _
  | cons a written ih =>
      obtain ⟨hkey, hkeys⟩ := List.forall_mem_cons.mp hkeys
      obtain ⟨hvalue, hvalues⟩ := List.forall_mem_cons.mp hvalues
      obtain ⟨hnew, hnodup⟩ := List.nodup_cons.mp hnodup
      obtain ⟨k, ks, hk, hstart, -⟩ := exists_of_isName hkey
      rw [List.flatMap_cons, attrText] at htext
      simp only [List.cons_append, List.nil_append, List.append_assoc] at htext
      cases h with
      | nil => cases hvalue
      | @cons gap' text' rest' a' atts' hne hblank hatt hatts =>
          obtain ⟨d, gap', rfl⟩ := List.exists_cons_of_ne_nil hne
          obtain ⟨c, t, rfl, hc⟩ := hatt.exists_cons
          have hblank : Blank gap' := (List.forall_mem_cons.mp hblank).2
          simp only [List.cons_append, List.append_assoc] at htext
          have hfirst := (List.cons.inj htext).2
          have hhead := hfirst
          rw [hk] at hhead
          obtain ⟨rfl, -, -⟩ := hblank.of_append_eq hc (isSpace_of_isNameStart hstart) hhead
          obtain ⟨hsame, hrest⟩ := hatt.of_attrText hkey hfirst
          rw [← hsame, valueOf_cons_self] at hvalue
          obtain ⟨hmore, hplain⟩ := hrest (Option.some.inj hvalue)
          refine List.forall_mem_cons.mpr ⟨hplain, ih hkeys hnodup hatts hmore fun b hb => ?_⟩
          have hother : b.1 ≠ a'.1 := by
            intro heq
            exact hnew (hsame ▸ heq ▸ List.mem_map_of_mem hb)
          rw [← valueOf_cons_of_ne hother]
          exact hvalues b hb

/-- The text of an element begins with a start tag. -/
theorem Element.exists_opening {text name : List Char} {values : List Char → Option (List Char)}
    {children : List Tree} (h : Element text (.node name values children)) :
    ∃ opening atts e tail, Opening opening name atts ∧ isNameChar e = false ∧
      values = valueOf atts ∧ text = opening ++ e :: tail := by
  cases h with
  | tags hopening _ _ => exact ⟨_, _, '>', _, hopening, rfl, rfl, rfl⟩
  | empty hopening => exact ⟨_, _, '/', ['>'], hopening, rfl, rfl, rfl⟩

/-- Neither the attributes nor what follows them go on with the name of the element. -/
theorem Attributes.head_not_name {text rest : List Char} {atts : List (List Char × List Char)}
    (h : Attributes text atts) (hrest : ∀ c ∈ rest.head?, isNameChar c = false) :
    ∀ c ∈ (text ++ rest).head?, isNameChar c = false := by
  cases h with
  | nil => exact hrest
  | @cons gap _ _ _ _ hne hblank _ _ =>
      obtain ⟨d, gap, rfl⟩ := List.exists_cons_of_ne_nil hne
      rintro c hc
      cases hc
      exact not_isNameChar_of_isSpace (hblank _ List.mem_cons_self)

/-- In front of a start tag there is only white space when the text begins with white space
and a start tag. -/
theorem Misc.of_append_eq {before gap rest more : List Char} {c : Char} (h : Misc before)
    (hgap : Blank gap) (hc : isNameStart c = true)
    (htext : before ++ '<' :: rest = gap ++ '<' :: c :: more) : rest = c :: more := by
  have hlt : isSpace '<' = false := rfl
  -- a remark would begin with `<!` or `<?`
  have hremark : ∀ {u s : List Char} {d : Char}, Blank u → isNameStart d = false →
      '<' :: d :: s ≠ u ++ '<' :: c :: more := by
    intro u s d hu hd heq
    obtain ⟨-, -, htail⟩ := hu.of_append_eq hlt hlt heq.symm
    rw [← (List.cons.inj htail).1, hc] at hd
    cases hd
  induction h generalizing gap with
  | nil => exact (hgap.of_append_eq hlt hlt htext.symm).2.2.symm
  | @space d s hd _ ih =>
      cases gap with
      | nil =>
          rw [List.cons_append, List.nil_append] at htext
          rw [(List.cons.inj htext).1, hlt] at hd
          cases hd
      | cons g gap => exact ih (List.forall_mem_cons.mp hgap).2 (List.cons.inj htext).2
  | remark hr _ ih =>
      rw [List.append_assoc] at htext
      cases hr with
      | comment => exact absurd htext (hremark hgap rfl)
      | instruction => exact absurd htext (hremark hgap rfl)

/-- **What can be read back was plain.** A document that begins with a start tag as it is
written has the values of its attributes only if these are plain. -/
theorem Document.plain_of_values {indent tag rest name : List Char}
    {written : List (List Char × List Char)} {values : List Char → Option (List Char)}
    {children : List Tree} (hindent : Blank indent) (htag : isName tag = true)
    (hkeys : ∀ a ∈ written, isName a.1 = true) (hnodup : (written.map Prod.fst).Nodup)
    (h : Document (indent ++ '<' :: (tag ++ (written.flatMap attrText ++ '>' :: rest)))
      (.node name values children))
    (hvalues : ∀ a ∈ written, values a.1 = some a.2) :
    ∀ a ∈ written, ∀ c ∈ a.2, isPlain c = true := by
  generalize htext : indent ++ '<' :: (tag ++ (written.flatMap attrText ++ '>' :: rest)) = text at h
  obtain ⟨hbefore, helement, -⟩ := h
  obtain ⟨opening, atts, e, tail, ⟨hname, hatts, -, hgap⟩, he, rfl, rfl⟩ := helement.exists_opening
  obtain ⟨k, ks, rfl, hk, -⟩ := exists_of_isName htag
  simp only [List.cons_append, List.append_assoc] at htext
  have hopened := hbefore.of_append_eq hindent hk htext.symm
  have hend : ∀ {s : List Char}, ∀ c ∈ (e :: s).head?, isNameChar c = false := by
    intro s c hc
    cases hc
    exact he
  have hwritten : ∀ c ∈ (written.flatMap attrText ++ '>' :: rest).head?, isNameChar c = false := by
    intro c hc
    cases written with
    | nil =>
        cases hc
        rfl
    | cons a written =>
        cases hc
        rfl
  obtain ⟨-, htags⟩ :=
    name_unique hname htag (hatts.head_not_name (hgap.head_not_name hend)) hwritten hopened
  exact hatts.plain_of_values hkeys hnodup htags hvalues

/-! ### Writing

The other direction: text as it is written is in the grammar if its values are plain. -/

/-- Attributes as they are written. -/
theorem attributes_of_plain {written : List (List Char × List Char)}
    (hkeys : ∀ a ∈ written, isName a.1 = true)
    (hplain : ∀ a ∈ written, ∀ c ∈ a.2, isPlain c = true) :
    Attributes (written.flatMap attrText) written := by
  induction written with
  | nil => exact .nil
  | cons a written ih =>
      obtain ⟨hkey, hkeys⟩ := List.forall_mem_cons.mp hkeys
      obtain ⟨hvalue, hplain⟩ := List.forall_mem_cons.mp hplain
      have hnil : Blank [] := List.forall_mem_nil _
      have hatt : Attribute (a.1 ++ '=' :: '"' :: (a.2 ++ ['"'])) a :=
        .mk hkey hnil hnil (.inl rfl) (attText_of_plain hvalue)
      have hspace : Blank [' '] := by simp [Blank, isSpace]
      exact .cons (List.cons_ne_nil _ _) hspace hatt (ih hkeys hplain)

/-- White space in the content of an element. -/
theorem Content.blank {gap s : List Char} {children : List Tree} (hgap : Blank gap)
    (h : Content s children) : Content (gap ++ s) children := by
  induction gap with
  | nil => exact h
  | cons c gap ih =>
      obtain ⟨hc, hgap⟩ := List.forall_mem_cons.mp hgap
      have hc : c = ' ' ∨ c = '\t' ∨ c = '\n' ∨ c = '\r' := by simpa [isSpace] using hc
      refine .char ?_ ?_ ?_ ?_ (ih hgap)
      · rcases hc with rfl | rfl | rfl | rfl <;> rfl
      · rcases hc with rfl | rfl | rfl | rfl <;> decide
      · rcases hc with rfl | rfl | rfl | rfl <;> decide
      · intro hprefix
        have hhead : ']' = c := (List.cons_prefix_cons.mp hprefix).1
        subst hhead
        revert hc
        decide

/-- **Plain values are read back.** An element with plain attributes, as it is written, is read
as its name, its attributes and its children. -/
theorem element_of_plain {tag content : List Char} {written : List (List Char × List Char)}
    {children : List Tree} (htag : isName tag = true) (hkeys : ∀ a ∈ written, isName a.1 = true)
    (hnodup : (written.map Prod.fst).Nodup)
    (hplain : ∀ a ∈ written, ∀ c ∈ a.2, isPlain c = true) (hcontent : Content content children) :
    Element ('<' :: (tag ++ (written.flatMap attrText ++
        '>' :: (content ++ '<' :: '/' :: (tag ++ ['>'])))))
      (.node tag (valueOf written) children) := by
  have hnil : Blank [] := List.forall_mem_nil _
  have hopening : Opening ('<' :: (tag ++ (written.flatMap attrText ++ []))) tag written :=
    .mk htag (attributes_of_plain hkeys hplain) hnodup hnil
  have helement := Element.tags hopening hcontent hnil
  simpa using helement

end Xml
