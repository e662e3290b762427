import Mathlib.Data.List.Nodup

/-!
# Dictionaries

A dictionary that keeps its keys in the order in which they came in, as Python's does: setting
a key that is there changes its value and leaves it in its place. No key can be there twice:
that is a field.

`get?_set` is the rule for look-ups, and `map_fst_setEntry` the one for the order of the keys.
-/

/-- A dictionary as its list of entries. -/
structure Dict (K V : Type) where
  entries : List (K × V)
  nodup : (entries.map Prod.fst).Nodup

namespace Dict

variable {K V : Type} [DecidableEq K]

/-- The dictionary without entries. -/
def empty : Dict K V := ⟨[], List.nodup_nil⟩

/-- The keys, in their order. -/
def keys (d : Dict K V) : List K := d.entries.map Prod.fst

/-- The value for a key. -/
def get? (d : Dict K V) (key : K) : Option V := (d.entries.find? fun e => e.1 = key).map Prod.snd

/-- The entries after a key is set. -/
def setEntry (key : K) (value : V) : List (K × V) → List (K × V)
  | [] => [(key, value)]
  | e :: es => if e.1 = key then (key, value) :: es else e :: setEntry key value es

/-- The keys after a key is set: the same, or the new one at the end. -/
theorem map_fst_setEntry (key : K) (value : V) (es : List (K × V)) :
    (setEntry key value es).map Prod.fst =
      if key ∈ es.map Prod.fst then es.map Prod.fst else es.map Prod.fst ++ [key] := by
  induction es with
  | nil => simp [setEntry]
  | cons e es ih =>
      by_cases hkey : e.1 = key
      · simp [setEntry, hkey]
      · have hne : key ≠ e.1 := Ne.symm hkey
        simp only [setEntry, hkey, if_false, List.map_cons, ih, List.mem_cons, hne, false_or]
        split <;> simp

/-- `d[key] = value`. -/
def set (d : Dict K V) (key : K) (value : V) : Dict K V where
  entries := setEntry key value d.entries
  nodup := by
    rw [map_fst_setEntry]
    split
    · exact d.nodup
    · rename_i hnew
      rw [← List.concat_eq_append]
      exact d.nodup.concat hnew

variable {d : Dict K V} {key : K} {value : V}

@[simp] theorem get?_empty (key : K) : (empty : Dict K V).get? key = none := rfl

/-- The entries are the look-ups that find something. -/
theorem mem_entries_iff : (key, value) ∈ d.entries ↔ d.get? key = some value := by
  rw [get?, Option.map_eq_some_iff]
  constructor
  · intro hmem
    obtain ⟨e, he⟩ : ∃ e, d.entries.find? (fun e => e.1 = key) = some e :=
      Option.isSome_iff_exists.mp (List.find?_isSome.mpr ⟨_, hmem, by simp⟩)
    have hkey : e.1 = key := by simpa using List.find?_some he
    refine ⟨e, he, ?_⟩
    rw [List.inj_on_of_nodup_map d.nodup (List.mem_of_find?_eq_some he) hmem hkey]
  · intro hfind
    obtain ⟨⟨k, v⟩, he, rfl⟩ := hfind
    have hkey : k = key := by simpa using List.find?_some he
    exact hkey ▸ List.mem_of_find?_eq_some he

/-- An entry that is set is the one found for its key. -/
theorem find?_setEntry (key : K) (value : V) (es : List (K × V)) (k : K) :
    (setEntry key value es).find? (fun e => e.1 = k) =
      if k = key then some (key, value) else es.find? fun e => e.1 = k := by
  induction es with
  | nil => by_cases hk : k = key <;> simp [setEntry, hk, eq_comm]
  | cons e es ih =>
      by_cases hkey : e.1 = key
      · by_cases hk : k = key
        · simp [setEntry, hkey, hk]
        · simp [setEntry, hkey, hk, Ne.symm hk]
      · simp only [setEntry, hkey, if_false, List.find?_cons, ih]
        by_cases hk : k = key
        · simp [hk, hkey]
        · simp [hk]

/-- **A key that was set has its value**, and the others keep theirs. -/
theorem get?_set (d : Dict K V) (key : K) (value : V) (k : K) :
    (d.set key value).get? k = if k = key then some value else d.get? k := by
  rw [get?, set, find?_setEntry]
  split
  · rfl
  · rfl

/-- The keys are those with a value. -/
theorem mem_keys : key ∈ d.keys ↔ ∃ value, d.get? key = some value := by
  simp only [keys, List.mem_map, Prod.exists, exists_and_right, exists_eq_right, mem_entries_iff]

end Dict
