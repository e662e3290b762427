import Mathlib.Data.List.Nodup
import Mathlib.Data.List.Infix

/-!
# Tables that are searched before they grow

A table is the list of its entries in the order in which they were added, each a key and a
record. `getOrAdd` returns the record of the entry whose key counts as the `same` as the one
looked for, and adds an entry when there is none; `fits` is whether the new record can be
stored. What counts as the same need not be equality: a table may tell keys apart by less than
they are.

`getOrAdd_cases` says all that `getOrAdd` can do, and the other lemmas are proved from it:
tables only grow at their end, a record once given is given again, and what holds of the old
entries and of the new one holds of all.

The records of many tables tell their own positions. Then a record stands for the class of its
key (`Interned.eq_iff`), which is what such a table is for.
-/

namespace Intern

variable {K R : Type}

/-- What is in a list stays where it is when the list grows. -/
theorem getElem?_of_isPrefix {l l' : List R} (h : l <+: l') {i : Nat} {a : R}
    (ha : l[i]? = some a) : l'[i]? = some a := by
  obtain ⟨rest, rfl⟩ := h
  rw [List.getElem?_append_left (List.getElem?_eq_some_iff.mp ha).1]
  exact ha

/-- The entries of a list with one more at its end. -/
theorem getElem?_concat {l : List R} {a b : R} {i : Nat} :
    (l ++ [a])[i]? = some b ↔ l[i]? = some b ∨ i = l.length ∧ b = a := by
  rcases Nat.lt_or_ge i l.length with hi | hi
  · rw [List.getElem?_append_left hi]
    exact ⟨.inl, fun h => h.resolve_right fun hlast => absurd hi (by omega)⟩
  · rw [List.getElem?_append_right hi, List.getElem?_eq_none hi, List.getElem?_singleton]
    have hiff : i - l.length = 0 ↔ i = l.length := by omega
    simp [hiff, eq_comm]

/-- A list that gets a new element at its end and a change in another place. -/
theorem getElem?_modify_concat {l : List R} {a b : R} {p : Nat} (hp : l[p]? = some a)
    (f : R → R) (i : Nat) :
    ((l ++ [b]).modify p f)[i]? =
      if i = p then some (f a) else if i = l.length then some b else l[i]? := by
  have hlt := (List.getElem?_eq_some_iff.mp hp).1
  rw [List.getElem?_modify]
  by_cases hip : i = p
  · subst hip
    rw [List.getElem?_append_left hlt, hp, if_pos rfl]
    simp
  · simp only [Ne.symm hip, hip, if_false, Option.map_eq_map, Option.map_id']
    by_cases hlast : i = l.length
    · rw [if_pos hlast, hlast, List.getElem?_concat_length]
    · rw [if_neg hlast]
      rcases Nat.lt_or_gt_of_ne hlast with hbelow | habove
      · rw [List.getElem?_append_left hbelow]
      · rw [List.getElem?_eq_none (by simp; omega), List.getElem?_eq_none (by omega)]

/-- The record for a key, and the table with an entry for it. -/
def getOrAdd (same : K → K → Bool) (fits : Bool) (t : List (K × R)) (k : K) (r : R) :
    Option (R × List (K × R)) :=
  match t.find? fun e => same e.1 k with
  | some e => some (e.2, t)
  | none => if fits then some (r, t ++ [(k, r)]) else none

variable {same : K → K → Bool} {fits : Bool} {t t' : List (K × R)} {k : K} {r r' : R}

/-- What `getOrAdd` can do: find an entry, or add one. -/
theorem getOrAdd_cases (h : getOrAdd same fits t k r = some (r', t')) :
    (∃ k', (k', r') ∈ t ∧ same k' k = true ∧ t' = t) ∨
      (∀ e ∈ t, same e.1 k = false) ∧ fits = true ∧ r' = r ∧ t' = t ++ [(k, r)] := by
  unfold getOrAdd at h
  split at h
  · rename_i e he
    cases h
    have hsame := List.find?_some he
    exact .inl ⟨e.1, List.mem_of_find?_eq_some he, hsame, rfl⟩
  · rename_i hnone
    split at h
    · rename_i hfits
      cases h
      refine .inr ⟨fun e he => ?_, hfits, rfl, rfl⟩
      exact Bool.eq_false_iff.mpr (List.find?_eq_none.mp hnone e he)
    · cases h

/-- A table with room always has an answer. -/
theorem getOrAdd_of_fits (same : K → K → Bool) (t : List (K × R)) (k : K) (r : R) :
    ∃ r' t', getOrAdd same true t k r = some (r', t') := by
  unfold getOrAdd
  split
  · exact ⟨_, _, rfl⟩
  · exact ⟨_, _, rfl⟩

/-- Tables grow at their end. -/
theorem getOrAdd_isPrefix (h : getOrAdd same fits t k r = some (r', t')) : t <+: t' := by
  obtain ⟨-, -, -, rfl⟩ | ⟨-, -, -, rfl⟩ := getOrAdd_cases h
  · exact List.prefix_refl _
  · exact List.prefix_append _ _

/-- A key that has been looked for is found: the same record comes back, and the table stays. -/
theorem getOrAdd_again {fits' : Bool} {r₁ : R} (hrefl : same k k = true)
    (h : getOrAdd same fits t k r = some (r', t')) :
    getOrAdd same fits' t' k r₁ = some (r', t') := by
  unfold getOrAdd at h ⊢
  split at h
  · rename_i e he
    cases h
    rw [he]
  · rename_i hnone
    split at h
    · cases h
      rw [List.find?_append, hnone]
      simp [hrefl]
    · cases h

/-- The record is that of an entry with the same key. -/
theorem getOrAdd_mem (hrefl : same k k = true) (h : getOrAdd same fits t k r = some (r', t')) :
    ∃ k', (k', r') ∈ t' ∧ same k' k = true := by
  obtain ⟨k', hmem, hsame, rfl⟩ | ⟨-, -, rfl, rfl⟩ := getOrAdd_cases h
  · exact ⟨k', hmem, hsame⟩
  · exact ⟨k, List.mem_append_right _ List.mem_cons_self, hrefl⟩

/-- What holds of the old entries and of the new one holds of all. -/
theorem forall_getOrAdd {P : K × R → Prop} (ht : ∀ e ∈ t, P e)
    (hnew : (∀ e ∈ t, same e.1 k = false) → P (k, r))
    (h : getOrAdd same fits t k r = some (r', t')) : ∀ e ∈ t', P e := by
  obtain ⟨-, -, -, rfl⟩ | ⟨hfresh, -, -, rfl⟩ := getOrAdd_cases h
  · exact ht
  · refine List.forall_mem_append.mpr ⟨ht, fun e he => ?_⟩
    rw [List.mem_singleton.mp he]
    exact hnew hfresh

/-- The same for what holds of an entry and its position. -/
theorem forall_getElem?_getOrAdd {P : Nat → K × R → Prop}
    (ht : ∀ (i : Nat) e, t[i]? = some e → P i e) (hnew : P t.length (k, r))
    (h : getOrAdd same fits t k r = some (r', t')) : ∀ (i : Nat) e, t'[i]? = some e → P i e := by
  obtain ⟨-, -, -, rfl⟩ | ⟨-, -, -, rfl⟩ := getOrAdd_cases h
  · exact ht
  · intro i e he
    rcases getElem?_concat.mp he with he | ⟨rfl, rfl⟩
    · exact ht i e he
    · exact hnew

/-- Distinct keys stay distinct when only equal keys are the same. -/
theorem nodup_getOrAdd (hsame : ∀ a b, same a b = true ↔ a = b) (ht : (t.map Prod.fst).Nodup)
    (h : getOrAdd same fits t k r = some (r', t')) : (t'.map Prod.fst).Nodup := by
  obtain ⟨-, -, -, rfl⟩ | ⟨hfresh, -, -, rfl⟩ := getOrAdd_cases h
  · exact ht
  · rw [List.map_append, List.nodup_append]
    refine ⟨ht, List.nodup_singleton _, fun a ha b hb heq => ?_⟩
    obtain ⟨e, he, rfl⟩ := List.mem_map.mp ha
    have hdiff := hfresh e he
    rw [heq, List.mem_singleton.mp hb, (hsame k k).mpr rfl] at hdiff
    cases hdiff

/-! ### Tables whose records tell their positions

If each record holds the position of its entry, equal records are in the same place, and keys
that are told apart are in different places. -/

/-- The record of a key. -/
def Found (same : K → K → Bool) (t : List (K × R)) (k : K) (r : R) : Prop :=
  ∃ k', (k', r) ∈ t ∧ same k' k = true

/-- A record that was found is found in a longer table. -/
theorem Found.mono (h : Found same t k r) (hpre : t <+: t') : Found same t' k r := by
  obtain ⟨k', hmem, hsame⟩ := h
  exact ⟨k', hpre.subset hmem, hsame⟩

/-- Every record tells its position, and all keys are told apart. -/
structure Interned (same : K → K → Bool) (pos : R → Nat) (t : List (K × R)) : Prop where
  pos : ∀ (i : Nat) e, t[i]? = some e → pos e.2 = i
  apart : t.Pairwise fun e e' => same e.1 e'.1 = false

/-- The empty table. -/
theorem interned_nil (same : K → K → Bool) (pos : R → Nat) : Interned same pos [] :=
  ⟨fun _ _ h => by simp at h, .nil⟩

/-- A new record that tells the next position keeps the table as it should be. -/
theorem Interned.getOrAdd {pos : R → Nat} (ht : Interned same pos t) (hr : pos r = t.length)
    (h : getOrAdd same fits t k r = some (r', t')) : Interned same pos t' := by
  refine ⟨forall_getElem?_getOrAdd ht.pos hr h, ?_⟩
  obtain ⟨-, -, -, rfl⟩ | ⟨hfresh, -, -, rfl⟩ := getOrAdd_cases h
  · exact ht.apart
  · rw [List.pairwise_append]
    refine ⟨ht.apart, List.pairwise_singleton _ _, fun e he e' he' => ?_⟩
    rw [List.mem_singleton.mp he']
    exact hfresh e he

/-- Two keys have the same record exactly when they are in the same class. -/
theorem Interned.eq_iff {C : Type} {f : K → C} (hsame : ∀ a b, same a b = true ↔ f a = f b)
    {pos : R → Nat} (ht : Interned same pos t) {k₁ : K} {r₁ : R} (h : Found same t k r)
    (h₁ : Found same t k₁ r₁) : r = r₁ ↔ f k = f k₁ := by
  obtain ⟨a, hmem, ha⟩ := h
  obtain ⟨b, hmem₁, hb⟩ := h₁
  rw [hsame] at ha hb
  obtain ⟨i, hi⟩ := List.getElem?_of_mem hmem
  obtain ⟨j, hj⟩ := List.getElem?_of_mem hmem₁
  have hposi := ht.pos i _ hi
  have hposj := ht.pos j _ hj
  constructor
  · -- equal records are at one position, so their entries have one key
    rintro rfl
    have hij : i = j := hposi.symm.trans hposj
    rw [hij, hj] at hi
    cases hi
    rw [← ha, ← hb]
  · intro hclass
    have hab : same a b = true := (hsame a b).mpr (ha.trans (hclass.trans hb.symm))
    have hba : same b a = true := (hsame b a).mpr ((hsame a b).mp hab).symm
    obtain ⟨hil, hgi⟩ := List.getElem?_eq_some_iff.mp hi
    obtain ⟨hjl, hgj⟩ := List.getElem?_eq_some_iff.mp hj
    have hapart := List.pairwise_iff_getElem.mp ht.apart
    -- an entry before the other would be told apart from it
    rcases Nat.lt_trichotomy i j with hlt | rfl | hlt
    · have hdiff := hapart i j hil hjl hlt
      rw [hgi, hgj, hab] at hdiff
      cases hdiff
    · rw [hi] at hj
      cases hj
      rfl
    · have hdiff := hapart j i hjl hil hlt
      rw [hgi, hgj, hba] at hdiff
      cases hdiff

end Intern
