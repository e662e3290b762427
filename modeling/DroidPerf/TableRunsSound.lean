import DroidPerf.Lib.Run
import DroidPerf.TablesSound
import Mathlib.Data.Finset.Prod
import Mathlib.Data.Int.Interval
import Mathlib.Combinatorics.Pigeonhole

/-!
# DroidPerf.TableRunsSound

Sequences of calls to the builder's tables.

Functions and locations are told apart by the hash of their keys and by nothing else, so the
tables do what they are for as long as no two keys that were looked up collide (`dedups_iff`);
no hash into 64 bits prevents that for all keys (`no_hash_separates`). A string is found under
its position, except for the one that was added last (`stringsKept_iff`).

In both parts a record that was returned stays in its table, so that the records of a run can
be compared in the table at its end: `HasRecord` for functions and locations, `Filled` for
strings.
-/

namespace DroidPerf

open Text Intern

namespace DataBuilder

/-! ### Functions and locations

The two tables are independent, and a call goes to one of them. A key is found if its hash is
that of the key of a record. -/

/-- The calls of the two tables. -/
inductive RecordCall where
  | addFunction (sourceFile : SourceFile) (name systemName : Nat) (startLine : Int)
  | addLocation (function : Function) (lineNo : Int)
  deriving DecidableEq, Repr

/-- What a call is looked up by: the positions of the name of the source file and of the
name, or the function and the line. -/
def RecordCall.key : RecordCall → FunctionTableKey ⊕ LocationTableKey
  | .addFunction sourceFile name _ _ => .inl ⟨sourceFile.filename, name⟩
  | .addLocation function lineNo => .inr ⟨function.id, lineNo⟩

section Hash

variable (hash : List Char → Int)

/-- A call of one of the tables. -/
def recordStep (q : FunctionTable × LocationTable) :
    RecordCall → Option ((FunctionTable × LocationTable) × (Function ⊕ Location))
  | .addFunction sourceFile name systemName startLine =>
    (q.1.addFunction hash sourceFile name systemName startLine).map fun r => ((r.2, q.2), .inl r.1)
  | .addLocation function lineNo =>
    (q.2.addLocation hash function lineNo).map fun r => ((q.1, r.2), .inr r.1)

/-- The hash of a key, in its table. -/
def keyHash : FunctionTableKey ⊕ LocationTableKey → Int ⊕ Int
  | .inl key => .inl (hash key.str)
  | .inr key => .inr (hash key.str)

/-- Two calls return the same record exactly when they are looked up by the same. -/
def Dedups (calls : List RecordCall) (records : List (Function ⊕ Location)) : Prop :=
  ∀ x ∈ calls.zip records, ∀ y ∈ calls.zip records, x.2 = y.2 ↔ x.1.key = y.1.key

/-- No two keys of these calls collide. -/
def KeysApart (calls : List RecordCall) : Prop :=
  ∀ x ∈ calls, ∀ y ∈ calls, keyHash hash x.key = keyHash hash y.key → x.key = y.key

instance (calls : List RecordCall) : Decidable (KeysApart hash calls) :=
  inferInstanceAs (Decidable (∀ _ ∈ _, ∀ _ ∈ _, _))

/-- When keys count as the same function. -/
def sameFunction (a b : FunctionTableKey) : Bool := hash a.str = hash b.str ∧ a.eq b

/-- When keys count as the same location. -/
def sameLocation (a b : LocationTableKey) : Bool := hash a.str = hash b.str ∧ a.eq b

end Hash

variable {hash : List Char → Int}

/-- `__eq__` tells nothing apart. -/
theorem sameFunction_iff (a b : FunctionTableKey) :
    sameFunction hash a b = true ↔ hash a.str = hash b.str := by
  simp [sameFunction, FunctionTableKey.eq]

/-- Locations count as the same exactly if their keys have the same hash. -/
theorem sameLocation_iff (a b : LocationTableKey) :
    sameLocation hash a b = true ↔ hash a.str = hash b.str := by
  simp [sameLocation, LocationTableKey.eq]

/-- Both tables have their records in order. -/
def RecordsOk (hash : List Char → Int) (q : FunctionTable × LocationTable) : Prop :=
  Interned (sameFunction hash) Function.id q.1 ∧ Interned (sameLocation hash) Location.id q.2

/-- The record is the one that the tables have for the key. -/
def HasRecord (hash : List Char → Int) (q : FunctionTable × LocationTable) (call : RecordCall)
    (record : Function ⊕ Location) : Prop :=
  match call.key, record with
  | .inl key, .inl function => Found (sameFunction hash) q.1 key function
  | .inr key, .inr location => Found (sameLocation hash) q.2 key location
  | _, _ => False

/-- A call returns the record of its key, and the records of other keys stay. -/
theorem recordStep_spec {q q' : FunctionTable × LocationTable} {call : RecordCall}
    {record : Function ⊕ Location} (hq : RecordsOk hash q)
    (h : recordStep hash q call = some (q', record)) :
    RecordsOk hash q' ∧ HasRecord hash q' call record ∧
      ∀ call' record', HasRecord hash q call' record' → HasRecord hash q' call' record' := by
  obtain ⟨hfunctions, hlocations⟩ := hq
  cases call with
  | addFunction sourceFile name systemName startLine =>
      obtain ⟨⟨function, t⟩, hadd, heq⟩ := Option.map_eq_some_iff.mp h
      cases heq
      have hpre : q.1 <+: t := getOrAdd_isPrefix hadd
      refine ⟨⟨hfunctions.getOrAdd rfl hadd, hlocations⟩, ?_, fun call' record' hrecord => ?_⟩
      · exact getOrAdd_mem ((sameFunction_iff _ _).mpr rfl) hadd
      · unfold HasRecord at hrecord ⊢
        split at hrecord
        · exact hrecord.mono hpre
        · exact hrecord
        · exact hrecord
  | addLocation function lineNo =>
      -- the same for the other table
      obtain ⟨⟨location, t⟩, hadd, heq⟩ := Option.map_eq_some_iff.mp h
      cases heq
      have hpre : q.2 <+: t := getOrAdd_isPrefix hadd
      refine ⟨⟨hfunctions, hlocations.getOrAdd rfl hadd⟩, ?_, fun call' record' hrecord => ?_⟩
      · exact getOrAdd_mem ((sameLocation_iff _ _).mpr rfl) hadd
      · unfold HasRecord at hrecord ⊢
        split at hrecord
        · exact hrecord
        · exact hrecord.mono hpre
        · exact hrecord

/-- Records are the same exactly when the keys have the same hash. -/
theorem HasRecord.eq_iff {q : FunctionTable × LocationTable} {call call' : RecordCall}
    {record record' : Function ⊕ Location} (hq : RecordsOk hash q)
    (h : HasRecord hash q call record) (h' : HasRecord hash q call' record') :
    record = record' ↔ keyHash hash call.key = keyHash hash call'.key := by
  unfold HasRecord at h h'
  -- records of different tables are different, as are the hashes
  cases hkey : call.key with
  | inl key =>
      cases hkey' : call'.key with
      | inl key' =>
          cases record <;> cases record' <;> simp only [hkey, hkey'] at h h'
          simp only [Sum.inl.injEq, keyHash]
          exact hq.1.eq_iff sameFunction_iff h h'
      | inr key' =>
          cases record <;> cases record' <;> simp only [hkey, hkey'] at h h'
          simp [keyHash]
  | inr key =>
      cases hkey' : call'.key with
      | inl key' =>
          cases record <;> cases record' <;> simp only [hkey, hkey'] at h h'
          simp [keyHash]
      | inr key' =>
          cases record <;> cases record' <;> simp only [hkey, hkey'] at h h'
          simp only [Sum.inr.injEq, keyHash]
          exact hq.2.eq_iff sameLocation_iff h h'

section Run

variable {calls : List RecordCall} {q : FunctionTable × LocationTable}
  {records : List (Function ⊕ Location)}

/-- The records of a run are the same exactly when their keys have the same hash. -/
theorem recordStep_records (h : Run.run (recordStep hash) ([], []) calls = some (q, records)) :
    records.length = calls.length ∧
      ∀ x ∈ calls.zip records, ∀ y ∈ calls.zip records,
        (x.2 = y.2 ↔ keyHash hash x.1.key = keyHash hash y.1.key) := by
  have hstart : RecordsOk hash ([], []) := ⟨interned_nil _ _, interned_nil _ _⟩
  obtain ⟨hq, -, hrecords⟩ := (Run.specRun_of_run h).answers (I := RecordsOk hash)
    (A := HasRecord hash) (fun _ _ _ _ => recordStep_spec) hstart
  obtain ⟨hlength, hrecords⟩ := List.forall₂_iff_zip.mp hrecords
  exact ⟨hlength.symm, fun x hx y hy => (hrecords hx).eq_iff hq (hrecords hy)⟩

/-- If the records are right, no two keys collide. -/
theorem Dedups.keysApart (h : Run.run (recordStep hash) ([], []) calls = some (q, records))
    (hdedups : Dedups calls records) : KeysApart hash calls := by
  obtain ⟨hlength, hrecord⟩ := recordStep_records h
  have hcall : ∀ call ∈ calls, ∃ record, (call, record) ∈ calls.zip records := by
    intro call hmem
    rw [← List.map_fst_zip hlength.ge] at hmem
    obtain ⟨⟨call', record⟩, hzip, rfl⟩ := List.mem_map.mp hmem
    exact ⟨record, hzip⟩
  intro x hx y hy hhash
  obtain ⟨r, hr⟩ := hcall x hx
  obtain ⟨r', hr'⟩ := hcall y hy
  exact (hdedups _ hr _ hr').mp ((hrecord _ hr _ hr').mpr hhash)

end Run

/-- **Functions and locations.** Over every sequence of calls, two calls return the same record
exactly when their keys are equal, if and only if no two different keys that were looked up
have the same hash. -/
theorem dedups_iff (hash : List Char → Int) (calls : List RecordCall)
    (q : FunctionTable × LocationTable) (records : List (Function ⊕ Location))
    (h : Run.run (recordStep hash) ([], []) calls = some (q, records)) :
    Dedups calls records ↔ KeysApart hash calls := by
  constructor
  · exact Dedups.keysApart h
  · intro hnone x hx y hy
    rw [(recordStep_records h).2 x hx y hy]
    constructor
    · exact hnone x.1 (List.of_mem_zip hx).1 y.1 (List.of_mem_zip hy).1
    · exact congrArg (keyHash hash)

/-- A function, the same again, another one and a line of it, with a hash that keeps these
apart. -/
theorem dedups_four_calls :
    let hash : List Char → Int := fun s => s.foldl (fun n c => 131 * n + c.toNat) 0
    let calls : List RecordCall :=
      [.addFunction ⟨1, 1, 1, 0⟩ 2 2 0, .addFunction ⟨1, 1, 1, 0⟩ 2 3 7,
        .addFunction ⟨1, 1, 1, 0⟩ 3 3 0, .addLocation ⟨1, 3, 3, 1, 0⟩ 12]
    ∃ q records, Run.run (recordStep hash) ([], []) calls = some (q, records) ∧
      Dedups calls records := by
  intro hash calls
  obtain ⟨q, records, hrun⟩ : ∃ q records,
      Run.run (recordStep hash) ([], []) calls = some (q, records) := ⟨_, _, rfl⟩
  exact ⟨q, records, hrun, (dedups_iff hash calls q records hrun).mpr (by decide)⟩

/-- A hash of 64 bits. -/
def HashFits (hash : List Char → Int) : Prop := ∀ s, -2 ^ 63 ≤ hash s ∧ hash s < 2 ^ 63

/-- A hash with which every sequence of calls that returns tells keys apart. -/
def Separates (hash : List Char → Int) : Prop :=
  ∀ calls q records, Run.run (recordStep hash) ([], []) calls = some (q, records) →
    Dedups calls records

/-- Positions below 2^33 have more pairs than there are hashes. -/
theorem exists_collision (h : HashFits hash) :
    ∃ a b : FunctionTableKey, a ≠ b ∧ hash a.str = hash b.str := by
  have hcard : (Finset.Ico (-2 ^ 63 : Int) (2 ^ 63)).card <
      (Finset.range (2 ^ 33) ×ˢ Finset.range (2 ^ 33)).card := by
    rw [Int.card_Ico, Finset.card_product, Finset.card_range]
    norm_num
  obtain ⟨p, -, p', -, hne, heq⟩ := Finset.exists_ne_map_eq_of_card_lt_of_maps_to hcard
    (f := fun p : Nat × Nat => hash (FunctionTableKey.mk p.1 p.2).str)
    (fun p _ => by simpa using h _)
  refine ⟨⟨p.1, p.2⟩, ⟨p'.1, p'.2⟩, fun hkeys => hne ?_, heq⟩
  injection hkeys with hfst hsnd
  exact Prod.ext hfst hsnd

/-- Whatever the hash is, some two functions are made one. -/
theorem no_hash_separates : ¬ ∃ hash, HashFits hash ∧ Separates hash := by
  rintro ⟨hash, hfits, hseparates⟩
  obtain ⟨a, b, hne, heq⟩ := exists_collision hfits
  obtain ⟨f, t, hf⟩ := getOrAdd_of_fits (sameFunction hash) [] a
    (⟨0, a.name, 0, 0, 0⟩ : Function)
  obtain ⟨f', t', hf'⟩ := getOrAdd_of_fits (sameFunction hash) t b
    (⟨t.length, b.name, 0, 0, 0⟩ : Function)
  -- two functions with the colliding keys, in new tables
  have hrun : Run.run (recordStep hash) ([], [])
      [.addFunction ⟨0, a.filePath, 0, 0⟩ a.name 0 0,
        .addFunction ⟨0, b.filePath, 0, 0⟩ b.name 0 0] = some ((t', []), [.inl f, .inl f']) := by
    have hadd : FunctionTable.addFunction hash [] ⟨0, a.filePath, 0, 0⟩ a.name 0 0 =
      some (f, t) := hf
    have hadd' : FunctionTable.addFunction hash t ⟨0, b.filePath, 0, 0⟩ b.name 0 0 =
        some (f', t') := hf'
    simp [Run.run, recordStep, hadd, hadd']
  have hkeys := (hseparates _ _ _ hrun).keysApart hrun
    (.addFunction ⟨0, a.filePath, 0, 0⟩ a.name 0 0) (by simp)
    (.addFunction ⟨0, b.filePath, 0, 0⟩ b.name 0 0) (by simp) (congrArg Sum.inl heq)
  exact hne (Sum.inl.inj hkeys)

/-! ### Strings

A string is looked up by the string itself, so positions tell strings apart. Only the function
that goes back from a position to the string stops one too early. -/

/-- `addString` as a step. -/
def StringTable.step (t : StringTable) (s : List Char) : Option (StringTable × Nat) :=
  (t.addString s).map Prod.swap

/-- What is said of strings and the positions they were added at. -/
structure StringsKept (strs : List (List Char)) (ids : List Nat) (t : StringTable) : Prop where
  get : ∀ x ∈ strs.zip ids, t.getString x.2 = some x.1
  again : ∀ x ∈ strs.zip ids, t.addString x.1 = some (x.2, t)
  same : ∀ x ∈ strs.zip ids, ∀ y ∈ strs.zip ids, x.2 = y.2 ↔ x.1 = y.1
  beyond : ∀ index, (∀ id ∈ ids, id < index) → t.getString index = some []

namespace StringTable

variable {t t' : StringTable} {s : List Char} {i : Nat}

/-- Every string is at its position, and no string twice. -/
def Distinct (t : StringTable) : Prop :=
  t.Ok ∧ Interned (fun a b => decide (a = b)) (fun i => i) t

/-- The empty string is in the table from the start. -/
theorem distinct_start : Distinct [([], 0)] := by
  have hplace : ∀ (i : Nat) e, ([([], 0)] : StringTable)[i]? = some e → e.2 = i := by
    intro i e he
    rw [List.getElem?_singleton] at he
    split at he
    · rename_i hzero
      cases he
      exact hzero.symm
    · cases he
  exact ⟨⟨rfl, hplace⟩, hplace, List.pairwise_singleton _ _⟩

/-- A string gets the position it is at. -/
theorem step_spec (ht : t.Distinct) (h : t.step s = some (t', i)) :
    t'.Distinct ∧ t'[i]? = some (s, i) ∧ t <+: t' := by
  obtain ⟨⟨i', t₁⟩, hadd, heq⟩ := Option.map_eq_some_iff.mp h
  cases heq
  exact ⟨⟨ht.1.addString hadd, ht.2.getOrAdd rfl hadd⟩, ht.1.getElem?_addString hadd,
    addString_isPrefix hadd⟩

/-- A position has one string, and a string one position. -/
theorem Distinct.eq_iff (ht : t.Distinct) {s' : List Char} {i' : Nat} (h : t[i]? = some (s, i))
    (h' : t[i']? = some (s', i')) : i = i' ↔ s = s' :=
  ht.2.eq_iff (f := id) (fun a b => by simp) ⟨s, List.mem_of_getElem? h, by simp⟩
    ⟨s', List.mem_of_getElem? h', by simp⟩

/-- A string that is there is not added again. -/
theorem Distinct.addString_again (ht : t.Distinct) (h : t[i]? = some (s, i)) :
    t.addString s = some (i, t) := by
  obtain ⟨i', t', hadd⟩ := exists_addString t s
  obtain ⟨k, hmem, hsame, rfl⟩ | ⟨hfresh, -⟩ := getOrAdd_cases hadd
  · obtain rfl : k = s := of_decide_eq_true hsame
    have hi := ht.1.getElem?_addString hadd
    rw [hadd, (ht.eq_iff h hi).mpr rfl]
  · have hdiff := hfresh _ (List.mem_of_getElem? h)
    simp at hdiff

/-- What was added last, if anything was. -/
theorem last_mem_of_specRun {strs : List (List Char)} {ids : List Nat}
    (h : Run.SpecRun (fun t s i t' => StringTable.step t s = some (t', i)) t strs ids t') :
    t'.length = t.length ∨ t'.length - 1 ∈ ids := by
  induction h with
  | nil t => exact .inl rfl
  | @cons t t₁ t' s strs i ids hstep _ ih =>
      obtain ⟨⟨i', t₂⟩, hadd, heq⟩ := Option.map_eq_some_iff.mp hstep
      cases heq
      rcases ih with hlen | hmem
      · obtain ⟨-, -, -, rfl⟩ | ⟨-, -, rfl, rfl⟩ := getOrAdd_cases hadd
        · exact .inl hlen
        · right
          rw [hlen, List.length_append, List.length_singleton]
          exact List.mem_cons_self
      · exact .inr (List.mem_cons_of_mem _ hmem)

/-- The string that was added last is found only when it is empty. -/
theorem getString_eq_iff (h : t[i]? = some (s, i)) :
    t.getString i = some s ↔ s = [] ∨ i + 1 < t.length := by
  have hi := (List.getElem?_eq_some_iff.mp h).1
  unfold StringTable.getString
  by_cases hlast : t.length - 1 ≤ i
  · simp only [if_pos hlast, Option.some.injEq]
    constructor
    · exact fun hs => .inl hs.symm
    · rintro (hs | hlt)
      · exact hs.symm
      · omega
  · simp only [if_neg hlast, List.getElem?_map, h]
    exact ⟨fun _ => .inr (by omega), fun _ => rfl⟩

/-- Strings can always be added. -/
theorem exists_run (strs : List (List Char)) (t : StringTable) :
    ∃ t' ids, Run.run StringTable.step t strs = some (t', ids) := by
  induction strs generalizing t with
  | nil => exact ⟨t, [], rfl⟩
  | cons s strs ih =>
      obtain ⟨i, t₁, hadd⟩ := exists_addString t s
      obtain ⟨t', ids, hrun⟩ := ih t₁
      exact ⟨t', i :: ids, by simp [Run.run, StringTable.step, hadd, hrun]⟩

/-- A table after a run, with what its positions are. -/
structure Filled (strs : List (List Char)) (ids : List Nat) (t : StringTable) : Prop where
  distinct : t.Distinct
  length : ids.length = strs.length
  entry : ∀ x ∈ strs.zip ids, t[x.2]? = some x
  last : t.length = 1 ∨ t.length - 1 ∈ ids

/-- A run leaves a table that is filled with its strings. -/
theorem filled_run {strs : List (List Char)} {ids : List Nat}
    (h : Run.run StringTable.step [([], 0)] strs = some (t, ids)) : Filled strs ids t := by
  have hspec := Run.specRun_of_run h
  obtain ⟨ht, -, hentries⟩ := hspec.answers (I := StringTable.Distinct)
    (A := fun t s i => t[i]? = some (s, i)) (fun t s i t' ht hstep => by
      obtain ⟨ht', hentry, hpre⟩ := step_spec ht hstep
      exact ⟨ht', hentry, fun _ _ => getElem?_of_isPrefix hpre⟩) distinct_start
  obtain ⟨hlength, hentries⟩ := List.forall₂_iff_zip.mp hentries
  exact ⟨ht, hlength.symm, fun x hx => hentries hx, last_mem_of_specRun hspec⟩

section Filled

variable {strs : List (List Char)} {ids : List Nat} (h : Filled strs ids t)
include h

/-- Every string that was added has a position. -/
theorem Filled.exists_id (hs : s ∈ strs) : ∃ i, (s, i) ∈ strs.zip ids := by
  rw [← List.map_fst_zip h.length.ge] at hs
  obtain ⟨⟨s', i⟩, hzip, rfl⟩ := List.mem_map.mp hs
  exact ⟨i, hzip⟩

/-- Every position that was returned is that of a string. -/
theorem Filled.exists_string (hi : i ∈ ids) : ∃ s, (s, i) ∈ strs.zip ids := by
  rw [← List.map_snd_zip h.length.le] at hi
  obtain ⟨⟨s, i'⟩, hzip, rfl⟩ := List.mem_map.mp hi
  exact ⟨s, hzip⟩

/-- Only the empty string is at position 0. -/
theorem Filled.eq_zero_iff (hx : (s, i) ∈ strs.zip ids) : i = 0 ↔ s = [] :=
  h.distinct.eq_iff (h.entry _ hx) h.distinct.1.zero

/-- What holds of the positions in any case. -/
theorem Filled.stringsKept (hget : ∀ x ∈ strs.zip ids, t.getString x.2 = some x.1) :
    StringsKept strs ids t where
  get := hget
  again x hx := h.distinct.addString_again (h.entry x hx)
  same x hx y hy := h.distinct.eq_iff (h.entry x hx) (h.entry y hy)
  beyond index hindex := by
    refine if_pos ?_
    rcases h.last with hone | hmem
    · omega
    · exact (hindex _ hmem).le

end Filled

end StringTable

/-- **Strings.** Over every sequence of `addString`, the positions are as they should be, and
every string is found at its own exactly when all of them are empty: the one that was added
last is not. -/
theorem stringsKept_iff (strs : List (List Char)) :
    ∃ t ids, Run.run StringTable.step [([], 0)] strs = some (t, ids) ∧
      (StringsKept strs ids t ↔ ∀ s ∈ strs, s = []) := by
  obtain ⟨t, ids, hrun⟩ := StringTable.exists_run strs [([], 0)]
  have h := StringTable.filled_run hrun
  refine ⟨t, ids, hrun, fun hkept s hs => ?_, fun hempty => h.stringsKept fun x hx => ?_⟩
  · obtain ⟨i, hx⟩ := h.exists_id hs
    have hi := (List.getElem?_eq_some_iff.mp (h.entry _ hx)).1
    rcases h.last with hone | hmem
    · exact (h.eq_zero_iff hx).mp (by omega)
    · obtain ⟨s', hy⟩ := h.exists_string hmem
      rcases (StringTable.getString_eq_iff (h.entry _ hy)).mp (hkept.get _ hy) with hs' | hlt
      · have hzero := (h.eq_zero_iff hy).mpr hs'
        exact (h.eq_zero_iff hx).mp (by omega)
      · omega
  · exact (StringTable.getString_eq_iff (h.entry x hx)).mpr
      (.inl (hempty _ (List.of_mem_zip hx).1))

/-- The string `a` gets position 1, where the empty string is found. -/
theorem last_string_not_found :
    ∃ t ids, Run.run StringTable.step [([], 0)] ["a".toList] = some (t, ids) ∧
      ¬ StringsKept ["a".toList] ids t := by
  refine ⟨_, _, rfl, fun hkept => ?_⟩
  exact absurd (hkept.get ("a".toList, 1) (by decide)) (by decide)

end DataBuilder

end DroidPerf
