import Mathlib.Data.List.Sort
import Mathlib.Order.Lattice

/-!
# Maps sorted by key

A finite map over a linear order, kept as the list of its entries in increasing order of keys.
The list can only be built sorted: the order is a field. `emplace` keeps an entry that is there
already, `floor?` is the entry with the greatest key not above the one given, the one before
the `upper_bound`, and `lowerBound` are the entries from the `lower_bound` on.

Each operation is characterised by the entries it has afterwards (`mem_emplace`, `mem_erase`)
or by the entry it finds (`floor?_eq_some`, `lowerBound_eq`), and what uses a map needs only
these.
-/

/-- A map as its list of entries, strictly increasing in the key. -/
structure SortedMap (K V : Type) [LinearOrder K] where
  entries : List (K × V)
  sorted : entries.Pairwise fun a b => a.1 < b.1

namespace SortedMap

variable {K V : Type} [LinearOrder K]

/-- The map without entries. -/
def empty : SortedMap K V := ⟨[], .nil⟩

/-! ### Insertion

The place of a new key is found by walking over the smaller ones. -/

/-- Insertion into a sorted list, unless the key is there. -/
def emplaceEntry (k : K) (v : V) : List (K × V) → List (K × V)
  | [] => [(k, v)]
  | e :: es =>
    if k < e.1 then (k, v) :: e :: es
    else if k = e.1 then e :: es
    else e :: emplaceEntry k v es

/-- The entries after an insertion: the new one is there only if its key was free. -/
theorem mem_emplaceEntry {k : K} {v : V} {es : List (K × V)}
    (hs : es.Pairwise fun a b => a.1 < b.1) {x : K × V} :
    x ∈ emplaceEntry k v es ↔ x ∈ es ∨ x = (k, v) ∧ ∀ e ∈ es, e.1 ≠ k := by
  induction es with
  | nil => simp [emplaceEntry]
  | cons e es ih =>
      obtain ⟨hlt, hs⟩ := List.pairwise_cons.mp hs
      unfold emplaceEntry
      split
      · -- everything in the list is above the new key
        rename_i hk
        have habove : ∀ e' ∈ e :: es, e'.1 ≠ k := by
          intro e' he'
          rcases List.mem_cons.mp he' with rfl | he'
          · exact hk.ne'
          · exact (hk.trans (hlt e' he')).ne'
        simp only [List.mem_cons] at habove ⊢
        tauto
      · split
        · rename_i hk
          have hthere : ¬ ∀ e' ∈ e :: es, e'.1 ≠ k := fun h => h e List.mem_cons_self hk.symm
          tauto
        · rename_i hk
          rw [List.mem_cons, ih hs, List.mem_cons, List.forall_mem_cons]
          have hne : e.1 ≠ k := Ne.symm hk
          tauto

/-- The order is kept, since the new entry comes behind all smaller keys and before the greater
ones. -/
theorem emplaceEntry_sorted {k : K} {v : V} {es : List (K × V)}
    (hs : es.Pairwise fun a b => a.1 < b.1) :
    (emplaceEntry k v es).Pairwise fun a b => a.1 < b.1 := by
  induction es with
  | nil => simp [emplaceEntry]
  | cons e es ih =>
      obtain ⟨hlt, hs'⟩ := List.pairwise_cons.mp hs
      unfold emplaceEntry
      split
      · rename_i hk
        refine List.pairwise_cons.mpr ⟨fun e' he' => ?_, hs⟩
        rcases List.mem_cons.mp he' with rfl | he'
        · exact hk
        · exact hk.trans (hlt e' he')
      · split
        · exact hs
        · rename_i hge hne
          refine List.pairwise_cons.mpr ⟨fun e' he' => ?_, ih hs'⟩
          rcases (mem_emplaceEntry hs').mp he' with he' | ⟨rfl, -⟩
          · exact hlt e' he'
          · exact lt_of_le_of_ne (not_lt.mp hge) (Ne.symm hne)

/-- `emplace`: the new entry, unless its key is taken. -/
def emplace (m : SortedMap K V) (k : K) (v : V) : SortedMap K V :=
  ⟨emplaceEntry k v m.entries, emplaceEntry_sorted m.sorted⟩

/-- Membership after an insertion. -/
theorem mem_emplace {m : SortedMap K V} {k : K} {v : V} {x : K × V} :
    x ∈ (m.emplace k v).entries ↔ x ∈ m.entries ∨ x = (k, v) ∧ ∀ e ∈ m.entries, e.1 ≠ k :=
  mem_emplaceEntry m.sorted

/-! ### Removal

An entry is taken out by its key, of which there is one at most. -/

/-- `erase` by key. -/
def erase (m : SortedMap K V) (k : K) : SortedMap K V :=
  ⟨m.entries.filter fun e => e.1 ≠ k, m.sorted.filter _⟩

theorem mem_erase {m : SortedMap K V} {k : K} {x : K × V} :
    x ∈ (m.erase k).entries ↔ x ∈ m.entries ∧ x.1 ≠ k := by simp [erase]

/-! ### Lookup

A map is asked for the entry at or below a key, or for all from a key on. Both are about the
order, so the proofs split the list at the key. -/

/-- Entries are determined by their keys. -/
theorem eq_of_fst_eq {m : SortedMap K V} {x y : K × V} (hx : x ∈ m.entries) (hy : y ∈ m.entries)
    (h : x.1 = y.1) : x = y := by
  by_contra hne
  rcases List.pairwise_iff_get.mp m.sorted with hs
  obtain ⟨i, rfl⟩ := List.get_of_mem hx
  obtain ⟨j, rfl⟩ := List.get_of_mem hy
  rcases lt_trichotomy i j with hij | rfl | hij
  · exact (hs i j hij).ne h
  · exact hne rfl
  · exact (hs j i hij).ne' h

/-- The entry with the greatest key not above `k`. -/
def floor? (m : SortedMap K V) (k : K) : Option (K × V) :=
  (m.entries.filter fun e => e.1 ≤ k).getLast?

/-- What is found is an entry at or below the key, and no such entry is greater. -/
theorem floor?_greatest {m : SortedMap K V} {k : K} {x : K × V} (h : m.floor? k = some x) :
    x ∈ m.entries ∧ x.1 ≤ k ∧ ∀ e ∈ m.entries, e.1 ≤ k → e.1 ≤ x.1 := by
  have hs : (m.entries.filter fun e => e.1 ≤ k).Pairwise fun a b => a.1 < b.1 :=
    m.sorted.filter _
  obtain ⟨es, hes⟩ := List.getLast?_eq_some_iff.mp h
  rw [hes] at hs
  have hx : x ∈ m.entries.filter fun e => e.1 ≤ k := by
    rw [hes]
    exact List.mem_append_right es List.mem_cons_self
  rw [List.mem_filter, decide_eq_true_iff] at hx
  refine ⟨hx.1, hx.2, fun e he hek => ?_⟩
  have hmem : e ∈ es ++ [x] := by
    rw [← hes, List.mem_filter, decide_eq_true_iff]
    exact ⟨he, hek⟩
  rcases List.mem_append.mp hmem with he' | he'
  · exact ((List.pairwise_append.mp hs).2.2 e he' x List.mem_cons_self).le
  · rw [List.mem_singleton.mp he']

/-- **The greatest entry not above a key**, characterised. -/
theorem floor?_eq_some {m : SortedMap K V} {k : K} {x : K × V} :
    m.floor? k = some x ↔
      x ∈ m.entries ∧ x.1 ≤ k ∧ ∀ e ∈ m.entries, e.1 ≤ k → e.1 ≤ x.1 := by
  refine ⟨floor?_greatest, ?_⟩
  intro hgreatest
  obtain ⟨hx, hxk, hmax⟩ := hgreatest
  cases hy : m.floor? k with
  | none =>
      have hmem : x ∈ m.entries.filter fun e => e.1 ≤ k := by
        rw [List.mem_filter, decide_eq_true_iff]
        exact ⟨hx, hxk⟩
      unfold floor? at hy
      rw [List.getLast?_eq_none_iff.mp hy] at hmem
      cases hmem
  | some y =>
      obtain ⟨hy, hyk, hmax'⟩ := floor?_greatest hy
      rw [eq_of_fst_eq hy hx (le_antisymm (hmax y hy hyk) (hmax' x hx hxk))]

/-- `lower_bound`: the entries from the first one on whose key is not below `k`. -/
def lowerBound (m : SortedMap K V) (k : K) : List (K × V) := m.entries.dropWhile fun e => e.1 < k

/-- What a test rejects up to some element and accepts from there on is split there. -/
theorem dropWhile_eq_filter_not {α : Type} {p : α → Bool} {l : List α}
    (h : l.Pairwise fun a b => p b = true → p a = true) :
    l.dropWhile p = l.filter fun a => !p a := by
  induction l with
  | nil => rfl
  | cons a l ih =>
      obtain ⟨ha, hl⟩ := List.pairwise_cons.mp h
      cases hp : p a with
      | true =>
          rw [List.dropWhile_cons_of_pos hp, List.filter_cons_of_neg (by simp [hp])]
          exact ih hl
      | false =>
          have hrest : ∀ b ∈ l, p b = false := by
            intro b hb
            exact Bool.eq_false_iff.mpr fun hpb => by simp [ha b hb hpb] at hp
          rw [List.dropWhile_cons_of_neg (by simp [hp]), List.filter_cons_of_pos (by simp [hp]),
            List.filter_eq_self.mpr fun b hb => by simp [hrest b hb]]

/-- The part before a key, as a filter. -/
theorem takeWhile_eq_filter {α : Type} {p : α → Bool} {l : List α}
    (h : l.Pairwise fun a b => p b = true → p a = true) : l.takeWhile p = l.filter p := by
  induction l with
  | nil => rfl
  | cons a l ih =>
      obtain ⟨ha, hl⟩ := List.pairwise_cons.mp h
      cases hp : p a with
      | true =>
          rw [List.takeWhile_cons_of_pos hp, List.filter_cons_of_pos hp, ih hl]
      | false =>
          rw [List.takeWhile_cons_of_neg (by simp [hp]), List.filter_cons_of_neg (by simp [hp])]
          refine (List.filter_eq_nil_iff.mpr fun b hb hpb => ?_).symm
          simp [ha b hb hpb] at hp

/-- The entries from a key on are those whose key is not below it. -/
theorem lowerBound_eq (m : SortedMap K V) (k : K) :
    m.lowerBound k = m.entries.filter fun e => k ≤ e.1 := by
  have hmono : m.entries.Pairwise fun a b =>
      decide (b.1 < k) = true → decide (a.1 < k) = true := by
    refine m.sorted.imp fun hab hb => ?_
    exact decide_eq_true (hab.trans (of_decide_eq_true hb))
  rw [lowerBound, dropWhile_eq_filter_not hmono]
  refine List.filter_congr fun e _ => ?_
  rw [← decide_not, decide_eq_decide, not_lt]

end SortedMap
