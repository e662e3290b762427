import DroidPerf.Agent
import Mathlib.Data.Set.Function

/-!
# DroidPerf.ClassNamesSound

The names under which classes are reported, for the signatures that `GetClassSignature`
returns.

`className` takes the first and the last character off a signature, which are `L` and `;` when
the class is not an array. Of an array it takes a bracket and the end of the element type, and
arrays of different element types can end up with one name or with none.

Signatures are descriptors as the virtual machine builds them. Two names are equal if and only
if the texts without these characters are (`className_eq_iff`), since putting dots for slashes
can be undone. When that is so is decided by induction on the descriptors
(`className_eq_iff_confused`), and `namedApart_iff` says it of a set of classes.
-/

namespace DroidPerf

open Text

/-! ### Signatures

The grammar of field descriptors. Primitive classes have no callbacks, so a signature is that
of a class or of an array. -/

/-- The primitive types. -/
inductive PrimitiveType where
  | boolean
  | byte
  | char
  | short
  | int
  | long
  | float
  | double
  deriving DecidableEq, Repr

/-- The letter of a primitive type. -/
def PrimitiveType.letter : PrimitiveType → Char
  | .boolean => 'Z'
  | .byte => 'B'
  | .char => 'C'
  | .short => 'S'
  | .int => 'I'
  | .long => 'J'
  | .float => 'F'
  | .double => 'D'

/-- The internal name of a class: its package and its name, with slashes between them. -/
structure InternalName where
  parts : List (List Char)
  nonempty : parts ≠ []
  valid : ∀ part ∈ parts, part ≠ [] ∧ ∀ c ∈ part, c ≠ '/' ∧ c ≠ '.' ∧ c ≠ ';' ∧ c ≠ '['

/-- The name as text. -/
def InternalName.text (n : InternalName) : List Char := ['/'].intercalate n.parts

/-- Field descriptors. -/
inductive Descriptor where
  | primitive (t : PrimitiveType)
  | object (name : InternalName)
  | array (component : Descriptor)

/-- The descriptor as text. -/
def Descriptor.text : Descriptor → List Char
  | .primitive t => [t.letter]
  | .object name => 'L' :: (name.text ++ [';'])
  | .array component => '[' :: component.text

/-- The classes whose signatures the callbacks ask for. -/
inductive ClassSignature where
  | object (name : InternalName)
  | array (component : Descriptor)

/-- The signature as text. -/
def ClassSignature.text : ClassSignature → List Char
  | .object name => (Descriptor.object name).text
  | .array component => (Descriptor.array component).text

/-! ### What is left of a signature

The text without its last character is defined along the descriptor, as the letter of the
element type is at its end. -/

/-- A descriptor without its last character. -/
def Descriptor.body : Descriptor → List Char
  | .primitive _ => []
  | .object name => 'L' :: name.text
  | .array component => '[' :: component.body

/-- A signature without its first and last character. -/
def ClassSignature.body : ClassSignature → List Char
  | .object name => name.text
  | .array component => component.body

/-- The first and the last character go, and dots are put for slashes. -/
theorem className_cons_concat (first last : Char) (s : List Char) :
    className (first :: (s ++ [last])) = s.map fun c => if c = '/' then '.' else c := by
  have hlen : (first :: (s ++ [last])).length - 2 = s.length := by simp
  rw [className, hlen, List.drop_one, List.tail_cons, List.take_left]

/-- A descriptor has a last character. -/
theorem Descriptor.exists_text_eq (d : Descriptor) : ∃ last, d.text = d.body ++ [last] := by
  induction d with
  | primitive t => exact ⟨t.letter, rfl⟩
  | object name => exact ⟨';', rfl⟩
  | array component ih =>
      obtain ⟨last, hlast⟩ := ih
      exact ⟨last, congrArg (List.cons '[') hlast⟩

/-- The name of a class is what is left of its signature, with dots. -/
theorem className_text (s : ClassSignature) :
    className s.text = s.body.map fun c => if c = '/' then '.' else c := by
  cases s with
  | object name => exact className_cons_concat 'L' ';' name.text
  | array component =>
      obtain ⟨last, hlast⟩ := component.exists_text_eq
      have htext : (ClassSignature.array component).text = '[' :: (component.body ++ [last]) :=
        congrArg (List.cons '[') hlast
      rw [htext]
      exact className_cons_concat '[' last component.body

/-! ### Internal names

Of internal names it is used that they are not empty and have neither dots nor brackets, and
that the text determines the parts. -/

namespace InternalName

variable {n m : InternalName}

/-- The parts are what stands between the slashes. -/
theorem text_injective (h : n.text = m.text) : n = m := by
  have hparts : n.parts = m.parts := by
    rw [← List.splitOn_intercalate '/' (fun s hs hc => ((n.valid s hs).2 '/' hc).1 rfl) n.nonempty,
      ← List.splitOn_intercalate '/' (fun s hs hc => ((m.valid s hs).2 '/' hc).1 rfl) m.nonempty]
    exact congrArg (fun s => s.splitOn '/') h
  cases n
  cases m
  cases hparts
  rfl

/-- No internal name is empty. -/
theorem text_ne_nil (n : InternalName) : n.text ≠ [] := by
  obtain ⟨part, parts, hparts⟩ := List.exists_cons_of_ne_nil n.nonempty
  have hpart := (n.valid part (by simp [hparts])).1
  rw [text, hparts]
  cases parts with
  | nil => simpa [List.intercalate] using hpart
  | cons next parts => simp [List.intercalate, hpart]

/-- A character of a name that is not a slash is in one of its parts. -/
theorem valid_of_mem_text {c : Char} (hc : c ∈ n.text) : c ≠ '.' ∧ c ≠ '[' := by
  rcases mem_intercalate_singleton hc with rfl | ⟨part, hpart, hc⟩
  · decide
  · obtain ⟨-, hdot, -, hbracket⟩ := (n.valid part hpart).2 c hc
    exact ⟨hdot, hbracket⟩

end InternalName

/-- There is no dot in a descriptor. -/
theorem Descriptor.dot_notMem_body (d : Descriptor) : '.' ∉ d.body := by
  induction d with
  | primitive t => simp [body]
  | object name => simpa [body] using fun h => (InternalName.valid_of_mem_text h).1 rfl
  | array component ih => simpa [body] using ih

/-- There is no dot in a class signature. -/
theorem ClassSignature.dot_notMem_body (s : ClassSignature) : '.' ∉ s.body := by
  cases s with
  | object name => exact fun h => (InternalName.valid_of_mem_text h).1 rfl
  | array component => exact component.dot_notMem_body

/-- Text without dots is read back when dots stand for its slashes. -/
theorem slashes_dots {s : List Char} (hs : '.' ∉ s) :
    ((s.map fun c => if c = '/' then '.' else c).map fun c => if c = '.' then '/' else c) = s := by
  rw [List.map_map]
  refine (List.map_congr_left fun c hc => ?_).trans (List.map_id s)
  have hdot : c ≠ '.' := fun heq => hs (heq ▸ hc)
  by_cases hslash : c = '/'
  · simp [hslash]
  · simp [hslash, hdot]

/-- Two names are equal if what is left of the two signatures is. -/
theorem className_eq_iff {s t : ClassSignature} :
    className s.text = className t.text ↔ s.body = t.body := by
  rw [className_text, className_text]
  refine ⟨fun h => ?_, fun h => by rw [h]⟩
  rw [← slashes_dots s.dot_notMem_body, h, slashes_dots t.dot_notMem_body]

/-! ### Which names coincide

Two kinds of coincidence are left: the letters of primitive types are cut off, and the `L` in
front of an element type can be the first letter of a name. -/

/-- Two descriptors that differ in nothing but a primitive element type. -/
inductive DifferInPrimitive : Descriptor → Descriptor → Prop
  | primitive {t u : PrimitiveType} : t ≠ u → DifferInPrimitive (.primitive t) (.primitive u)
  | array {d e : Descriptor} : DifferInPrimitive d e → DifferInPrimitive (.array d) (.array e)

/-- Two classes with one name: arrays of different primitive types with the same number of
dimensions, or a class and the array of the class whose name is shorter by an `L`. -/
inductive Confused : ClassSignature → ClassSignature → Prop
  | primitives {d e : Descriptor} : DifferInPrimitive d e → Confused (.array d) (.array e)
  | object {n m : InternalName} : n.text = 'L' :: m.text →
      Confused (.object n) (.array (.object m))

/-- The letter that differs is the one cut off. -/
theorem DifferInPrimitive.body_eq {d e : Descriptor} (h : DifferInPrimitive d e) :
    d.body = e.body := by
  induction h with
  | primitive _ => rfl
  | array _ ih => exact congrArg (List.cons '[') ih

/-- If what is left is equal, only a primitive type can differ. -/
theorem Descriptor.eq_or_differ {d e : Descriptor} (h : d.body = e.body) :
    d = e ∨ DifferInPrimitive d e := by
  induction d generalizing e with
  | primitive t =>
      cases e with
      | primitive u =>
          by_cases htu : t = u
          · exact .inl (congrArg _ htu)
          · exact .inr (.primitive htu)
      | object m => cases h
      | array e => cases h
  | object n =>
      cases e with
      | primitive u => cases h
      | object m => exact .inl (congrArg _ (InternalName.text_injective (List.cons.inj h).2))
      | array e => exact absurd (List.cons.inj h).1 (by decide)
  | array d ih =>
      cases e with
      | primitive u => cases h
      | object m => exact absurd (List.cons.inj h).1 (by decide)
      | array e =>
          rcases ih (List.cons.inj h).2 with rfl | hdiffer
          · exact .inl rfl
          · exact .inr hdiffer.array

/-- Of the arrays only one of a class can have the name of a class. -/
theorem exists_object_of_body_eq {n : InternalName} {d : Descriptor} (h : n.text = d.body) :
    ∃ m, d = .object m ∧ n.text = 'L' :: m.text := by
  cases d with
  | primitive t => exact absurd h n.text_ne_nil
  | object m => exact ⟨m, rfl, h⟩
  | array d =>
      have hmem : '[' ∈ n.text := by
        rw [h]
        exact List.mem_cons_self
      exact absurd rfl (InternalName.valid_of_mem_text hmem).2

/-- Confused classes have the same name. -/
theorem Confused.body_eq {s t : ClassSignature} (h : Confused s t) : s.body = t.body := by
  cases h with
  | primitives hdiffer => exact hdiffer.body_eq
  | object hname => exact hname

/-- A descriptor does not differ from itself. -/
theorem DifferInPrimitive.irrefl (d : Descriptor) : ¬DifferInPrimitive d d := by
  induction d with
  | primitive t =>
      rintro ⟨hne⟩
      exact hne rfl
  | object n => exact fun h => by cases h
  | array d ih =>
      rintro ⟨⟩
      rename_i h
      exact ih h

/-- Confused classes are different classes. -/
theorem Confused.ne {s t : ClassSignature} (h : Confused s t) : s ≠ t := by
  cases h with
  | primitives hdiffer =>
      intro heq
      cases heq
      exact DifferInPrimitive.irrefl _ hdiffer
  | object _ => exact fun heq => by cases heq

/-- Two classes have one name if they are the same or confused, in either order. -/
theorem className_eq_iff_confused {s t : ClassSignature} :
    className s.text = className t.text ↔ s = t ∨ Confused s t ∨ Confused t s := by
  rw [className_eq_iff]
  constructor
  · intro h
    cases s with
    | object n =>
        cases t with
        | object m => exact .inl (congrArg _ (InternalName.text_injective h))
        | array e =>
            -- a class and an array
            obtain ⟨m, rfl, hname⟩ := exists_object_of_body_eq h
            exact .inr (.inl (.object hname))
    | array d =>
        cases t with
        | object m =>
            obtain ⟨n, rfl, hname⟩ := exists_object_of_body_eq h.symm
            exact .inr (.inr (.object hname))
        | array e =>
            -- two arrays
            rcases Descriptor.eq_or_differ h with rfl | hdiffer
            · exact .inl rfl
            · exact .inr (.inl (.primitives hdiffer))
  · rintro (rfl | h | h)
    · rfl
    · exact h.body_eq
    · exact h.body_eq.symm

/-- The classes without a name are the one-dimensional arrays of a primitive type. -/
theorem className_eq_nil_iff {s : ClassSignature} :
    className s.text = [] ↔ ∃ t, s = .array (.primitive t) := by
  rw [className_text, List.map_eq_nil_iff]
  cases s with
  | object n =>
      refine ⟨fun h => absurd h n.text_ne_nil, ?_⟩
      rintro ⟨t, h⟩
      cases h
  | array d =>
      cases d with
      | primitive t => exact ⟨fun _ => ⟨t, rfl⟩, fun _ => rfl⟩
      | object m =>
          refine ⟨fun h => absurd h (List.cons_ne_nil _ _), ?_⟩
          rintro ⟨t, h⟩
          cases h
      | array d =>
          refine ⟨fun h => absurd h (List.cons_ne_nil _ _), ?_⟩
          rintro ⟨t, h⟩
          cases h

/-- An object of such a class is not recorded. -/
theorem not_isRecorded_primitiveArray (t : PrimitiveType) (size : Nat) :
    isRecorded (className (ClassSignature.array (.primitive t)).text) size = false := by
  rw [className_eq_nil_iff.mpr ⟨t, rfl⟩]
  rfl

/-! ### The names of the classes of a process

The property that a reader of the reports needs, for the set of the classes of a process. -/

/-- The classes have names, each its own. -/
def NamedApart (classes : Set ClassSignature) : Prop :=
  (∀ s ∈ classes, className s.text ≠ []) ∧ classes.InjOn fun s => className s.text

/-- **Class names.** The names of classes are apart from each other, and none is empty, exactly
if there is no one-dimensional array of a primitive type among the classes, no two arrays of
different primitive types with the same number of dimensions, and no class with an `L` in front
of the name of a class that there is an array of. -/
theorem namedApart_iff (classes : Set ClassSignature) :
    NamedApart classes ↔
      (∀ t, .array (.primitive t) ∉ classes) ∧
        ∀ s ∈ classes, ∀ t ∈ classes, ¬Confused s t := by
  constructor
  · rintro ⟨hnames, hinj⟩
    refine ⟨fun t ht => hnames _ ht (className_eq_nil_iff.mpr ⟨t, rfl⟩), fun s hs t ht hst => ?_⟩
    have heq := hinj hs ht (className_eq_iff_confused.mpr (.inr (.inl hst)))
    exact hst.ne heq
  · rintro ⟨hprimitive, hconfused⟩
    constructor
    · intro s hs hnil
      obtain ⟨t, rfl⟩ := className_eq_nil_iff.mp hnil
      exact hprimitive t hs
    · intro s hs t ht h
      rcases className_eq_iff_confused.mp h with heq | hst | hts
      · exact heq
      · exact absurd hst (hconfused s hs t ht)
      · exact absurd hts (hconfused t ht s hs)

/-- The classes `La` and `a`. -/
def nameLa : InternalName := ⟨[['L', 'a']], by decide, by simp⟩
def nameA : InternalName := ⟨[['a']], by decide, by simp⟩

/-- Among the signatures that the virtual machine can return there are ones without a name,
and arrays of different types that share one; so do `La` and the arrays of `a`. -/
theorem classNames_not_apart :
    ¬NamedApart Set.univ ∧
      className (ClassSignature.array (.primitive .int)).text = [] ∧
      className (ClassSignature.array (.array (.primitive .int))).text =
        className (ClassSignature.array (.array (.primitive .long))).text ∧
      className (ClassSignature.object nameLa).text =
        className (ClassSignature.array (.object nameA)).text :=
  ⟨fun h => h.1 (.array (.primitive .int)) trivial rfl, rfl, rfl, rfl⟩

end DroidPerf
