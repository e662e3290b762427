import DroidPerf.Lib.Intern

/-!
# Trees of paths

A tree that only grows, kept as the list of its nodes in the order in which they were made.
Node 0 is the root; entry `i` of the list is the parent and the key of node `i + 1`, so a
parent is older than its children. No two nodes have the same parent and the same key: that is
what makes a node known by the keys on the way to it from the root (`HasPath.unique`,
`HasPath.inj`).

`Down` goes from a node to its child under a key, which is made when there is none. `Walk` goes
down several keys.

Both are relations, so that a program whose tables are such a tree can be shown to make these
moves without being one. What they achieve is told in terms of paths alone: going down leads to
the node with one more key (`Down.hasPath`), adds that path and no other (`Down.isPath_iff`),
and changes nothing where the path was there (`Down.nodes_eq`); the same for walks.
-/

/-- A tree as the list of the parents and keys of its nodes. -/
structure PathTree (K : Type) where
  nodes : List (Nat × K)
  nodup : nodes.Nodup
  parent_le : ∀ (i : Nat) (e : Nat × K), nodes[i]? = some e → e.1 ≤ i

namespace PathTree

variable {K : Type} {t t' : PathTree K} {n c i : Nat} {k : K} {ks : List K}

/-- The tree with only a root. -/
def root : PathTree K := ⟨[], .nil, by simp⟩

/-- A node that is not there yet is the parent of none. -/
theorem parent_lt {p : Nat} (h : t.nodes[i]? = some (p, k)) : p < t.nodes.length :=
  lt_of_le_of_lt (t.parent_le i _ h) (List.getElem?_eq_some_iff.mp h).1

/-- The entries of a tree with one more node. -/
theorem getElem?_added {p : Nat} (h : t'.nodes = t.nodes ++ [(p, k)]) {e : Nat × K} :
    t'.nodes[i]? = some e ↔ t.nodes[i]? = some e ∨ i = t.nodes.length ∧ e = (p, k) := by
  rw [h]
  exact Intern.getElem?_concat

/-! ### Paths

A path is read from the root, so the key of a node is the last one of its path. Older nodes
come first in the list, and inductions on a node go to its parent. -/

/-- The keys on the way from the root to a node. -/
inductive HasPath (t : PathTree K) : Nat → List K → Prop
  | root : HasPath t 0 []
  | child {i p : Nat} {k : K} {ks : List K} :
      t.nodes[i]? = some (p, k) → HasPath t p ks → HasPath t (i + 1) (ks ++ [k])

/-- The keys are those of some node. -/
def IsPath (t : PathTree K) (ks : List K) : Prop := ∃ n, HasPath t n ks

/-- Only nodes have paths. -/
theorem HasPath.le (h : HasPath t n ks) : n ≤ t.nodes.length := by
  cases h with
  | root => exact Nat.zero_le _
  | child hentry _ => exact (List.getElem?_eq_some_iff.mp hentry).1

/-- Paths stay when the tree grows. -/
theorem HasPath.mono (hpre : t.nodes <+: t'.nodes) (h : HasPath t n ks) : HasPath t' n ks := by
  induction h with
  | root => exact .root
  | child hentry _ ih => exact .child (Intern.getElem?_of_isPrefix hpre hentry) ih

/-- Every node has a path. -/
theorem exists_hasPath (t : PathTree K) (h : n ≤ t.nodes.length) : ∃ ks, HasPath t n ks := by
  induction n using Nat.strong_induction_on with
  | _ n ih =>
      cases n with
      | zero => exact ⟨[], .root⟩
      | succ i =>
          have hentry : t.nodes[i]? = some t.nodes[i] := List.getElem?_eq_getElem h
          have hparent := t.parent_le i _ hentry
          obtain ⟨ks, hks⟩ := ih t.nodes[i].1 (Nat.lt_succ_of_le hparent) (by omega)
          exact ⟨_, .child hentry hks⟩

/-- A node has one path. -/
theorem HasPath.unique {ks' : List K} (h : HasPath t n ks) (h' : HasPath t n ks') : ks = ks' := by
  induction h generalizing ks' with
  | root =>
      cases h'
      rfl
  | child hentry _ ih =>
      cases h' with
      | child hentry' h' =>
          rw [hentry] at hentry'
          cases hentry'
          rw [ih h']

/-- A path leads to one node. -/
theorem HasPath.inj {n' : Nat} (h : HasPath t n ks) (h' : HasPath t n' ks) : n = n' := by
  induction h generalizing n' with
  | root =>
      generalize hks : ([] : List K) = ks at h'
      cases h' with
      | root => rfl
      | child _ _ => exact absurd hks.symm (List.append_ne_nil_of_right_ne_nil _ (by simp))
  | @child i p k ks hentry _ ih =>
      generalize hks : ks ++ [k] = ks₁ at h'
      cases h' with
      | root => exact absurd hks (List.append_ne_nil_of_right_ne_nil _ (by simp))
      | @child i' p' k' ks' hentry' h' =>
          obtain ⟨rfl, hk⟩ := List.append_inj' hks rfl
          cases hk
          obtain rfl := ih h'
          -- parent and key are the same, so it is the same entry
          obtain ⟨hi, hget⟩ := List.getElem?_eq_some_iff.mp hentry
          obtain ⟨hi', hget'⟩ := List.getElem?_eq_some_iff.mp hentry'
          rw [(t.nodup.getElem_inj_iff).mp (hget.trans hget'.symm)]

/-- The last step of a path. -/
theorem HasPath.last (h : HasPath t n (ks ++ [k])) :
    ∃ i p, n = i + 1 ∧ t.nodes[i]? = some (p, k) ∧ HasPath t p ks := by
  generalize hks : ks ++ [k] = ks₁ at h
  cases h with
  | root => exact absurd hks (List.append_ne_nil_of_right_ne_nil _ (by simp))
  | child hentry hparent =>
      obtain ⟨rfl, hk⟩ := List.append_inj' hks rfl
      cases hk
      exact ⟨_, _, rfl, hentry, hparent⟩

/-- The root has the empty path. -/
theorem isPath_nil (t : PathTree K) : IsPath t [] := ⟨0, .root⟩

/-- What leads to a path is a path. -/
theorem IsPath.of_isPrefix {ks' : List K} (h : IsPath t ks) (hpre : ks' <+: ks) : IsPath t ks' := by
  obtain ⟨r, rfl⟩ := hpre
  induction r using List.reverseRecOn with
  | nil => rwa [List.append_nil] at h
  | append_singleton r k ih =>
      refine ih ?_
      rw [← List.append_assoc] at h
      obtain ⟨n, hn⟩ := h
      generalize hks : ks' ++ r ++ [k] = ks₁ at hn
      cases hn with
      | root => exact absurd hks (List.append_ne_nil_of_right_ne_nil _ (by simp))
      | child _ hparent =>
          obtain ⟨rfl, -⟩ := List.append_inj' hks rfl
          exact ⟨_, hparent⟩

/-! ### Going down

There are two ways: the child is there, or it is made at the end of the list. -/

/-- From the node `n` to its child `c` under the key `k`, which is made when there is
none. -/
inductive Down (t : PathTree K) (n : Nat) (k : K) : Nat → PathTree K → Prop
  | found {i : Nat} : t.nodes[i]? = some (n, k) → Down t n k (i + 1) t
  | added {t' : PathTree K} : n ≤ t.nodes.length → (n, k) ∉ t.nodes →
      t'.nodes = t.nodes ++ [(n, k)] → Down t n k (t.nodes.length + 1) t'

/-- A tree with one more node. -/
def add (t : PathTree K) (n : Nat) (k : K) (hn : n ≤ t.nodes.length) (hnew : (n, k) ∉ t.nodes) :
    PathTree K where
  nodes := t.nodes ++ [(n, k)]
  nodup := by
    rw [List.nodup_append]
    refine ⟨t.nodup, List.nodup_singleton _, fun e he e' he' heq => hnew ?_⟩
    rw [← List.mem_singleton.mp he', ← heq]
    exact he
  parent_le i e h := by
    rcases Intern.getElem?_concat.mp h with h | ⟨rfl, rfl⟩
    · exact t.parent_le i e h
    · exact hn

/-- Nodes are only added, at the end. -/
theorem Down.isPrefix (h : Down t n k c t') : t.nodes <+: t'.nodes := by
  cases h with
  | found _ => exact List.prefix_refl _
  | added _ _ hnodes => exact hnodes ▸ List.prefix_append _ _

/-- **Going down leads to the path with one more key.** -/
theorem Down.hasPath (h : Down t n k c t') (hn : HasPath t n ks) : HasPath t' c (ks ++ [k]) := by
  cases h with
  | found hentry => exact .child hentry hn
  | added _ _ hnodes =>
      refine .child ?_ (hn.mono (hnodes ▸ List.prefix_append _ _))
      rw [hnodes, List.getElem?_concat_length]

/-- One node is added at most. -/
theorem Down.length_le (h : Down t n k c t') : t'.nodes.length ≤ t.nodes.length + 1 := by
  cases h with
  | found _ => exact Nat.le_succ _
  | added _ _ hnodes => rw [hnodes, List.length_append, List.length_singleton]

/-- Going down a path of the tree changes nothing. -/
theorem Down.nodes_eq (h : Down t n k c t') (hn : HasPath t n ks) (hpath : IsPath t (ks ++ [k])) :
    t'.nodes = t.nodes := by
  cases h with
  | found _ => rfl
  | added _ hnew _ =>
      obtain ⟨m, hm⟩ := hpath
      generalize hks : ks ++ [k] = ks₁ at hm
      cases hm with
      | root => exact absurd hks (List.append_ne_nil_of_right_ne_nil _ (by simp))
      | child hentry hparent =>
          obtain ⟨rfl, hk⟩ := List.append_inj' hks rfl
          cases hk
          rw [hparent.inj hn] at hentry
          exact absurd (List.mem_of_getElem? hentry) hnew

/-- Going down adds the path of the child, and no other. -/
theorem Down.isPath_iff (h : Down t n k c t') (hn : HasPath t n ks) {ks' : List K} :
    IsPath t' ks' ↔ IsPath t ks' ∨ ks' = ks ++ [k] := by
  constructor
  · intro hpath
    obtain ⟨n', hn'⟩ := hpath
    rcases Nat.lt_or_ge t.nodes.length n' with hlt | hle
    · -- only the new node is beyond the old ones
      have hsame : n' = c := by
        have hle := hn'.le
        cases h with
        | found _ => omega
        | added _ _ hnodes =>
            rw [hnodes, List.length_append, List.length_singleton] at hle
            omega
      subst hsame
      exact .inr (hn'.unique (h.hasPath hn))
    · obtain ⟨ks₁, hks₁⟩ := exists_hasPath t hle
      rw [hn'.unique (hks₁.mono h.isPrefix)]
      exact .inl ⟨n', hks₁⟩
  · intro hpath
    rcases hpath with ⟨n', hn'⟩ | rfl
    · exact ⟨n', hn'.mono h.isPrefix⟩
    · exact ⟨c, h.hasPath hn⟩

/-- Down several keys. -/
inductive Walk : PathTree K → Nat → List K → Nat → PathTree K → Prop
  | nil {t : PathTree K} {n : Nat} : Walk t n [] n t
  | cons {t t₁ t' : PathTree K} {n c n' : Nat} {k : K} {ks : List K} :
      Down t n k c t₁ → Walk t₁ c ks n' t' → Walk t n (k :: ks) n' t'

/-- A walk only adds nodes. -/
theorem Walk.isPrefix {n' : Nat} (h : Walk t n ks n' t') : t.nodes <+: t'.nodes := by
  induction h with
  | nil => exact List.prefix_refl _
  | cons hdown _ ih => exact hdown.isPrefix.trans ih

/-- **A walk leads to the path with its keys behind.** -/
theorem Walk.hasPath {n' : Nat} {ks' : List K} (h : Walk t n ks' n' t') (hn : HasPath t n ks) :
    HasPath t' n' (ks ++ ks') := by
  induction h generalizing ks with
  | nil =>
      rw [List.append_nil]
      exact hn
  | cons hdown _ ih =>
      have hpath := ih (hdown.hasPath hn)
      rw [List.append_assoc] at hpath
      exact hpath

/-- The last step of a walk. -/
theorem Walk.split {n' : Nat} (h : Walk t n (ks ++ [k]) n' t') :
    ∃ c t₁, Walk t n ks c t₁ ∧ Down t₁ c k n' t' := by
  induction ks generalizing t n with
  | nil =>
      cases h with
      | cons hdown hrest =>
          cases hrest
          exact ⟨n, t, .nil, hdown⟩
  | cons k' ks ih =>
      cases h with
      | cons hdown hrest =>
          obtain ⟨c, t₁, hwalk, hlast⟩ := ih hrest
          exact ⟨c, t₁, .cons hdown hwalk, hlast⟩

/-- A walk down a path of the tree changes nothing. -/
theorem Walk.nodes_eq {n' : Nat} {ks' : List K} (h : Walk t n ks' n' t') (hn : HasPath t n ks)
    (hpath : ∀ r, r <+: ks' → IsPath t (ks ++ r)) : t'.nodes = t.nodes := by
  induction h generalizing ks with
  | nil => rfl
  | @cons t t₁ t' n c n' k ks₂ hdown _ ih =>
      have hsame := hdown.nodes_eq hn (hpath [k] ⟨ks₂, rfl⟩)
      have hmono : t.nodes <+: t₁.nodes := hdown.isPrefix
      rw [ih (hdown.hasPath hn) fun r hr => ?_, hsame]
      obtain ⟨m, hm⟩ := hpath (k :: r) (List.cons_prefix_cons.mpr ⟨rfl, hr⟩)
      refine ⟨m, ?_⟩
      rw [List.append_assoc]
      exact hm.mono hmono

/-- A walk adds the paths on its way, and no others. -/
theorem Walk.isPath_iff {n' : Nat} {ks₁ : List K} (h : Walk t n ks₁ n' t') (hn : HasPath t n ks)
    {ks' : List K} : IsPath t' ks' ↔ IsPath t ks' ∨ ∃ r, r <+: ks₁ ∧ ks' = ks ++ r := by
  -- a walk of one key more adds the paths of the shorter one and one more
  induction h generalizing ks with
  | nil =>
      constructor
      · exact .inl
      · intro hpath
        rcases hpath with hpath | ⟨r, hr, rfl⟩
        · exact hpath
        · rw [List.prefix_nil.mp hr, List.append_nil]
          exact ⟨_, hn⟩
  | @cons t t₁ t' n c n' k ks₂ hdown _ ih =>
      rw [ih (hdown.hasPath hn), hdown.isPath_iff hn]
      constructor
      · intro hpath
        rcases hpath with (hpath | rfl) | ⟨r, hr, rfl⟩
        · exact .inl hpath
        · exact .inr ⟨[k], ⟨ks₂, rfl⟩, rfl⟩
        · exact .inr ⟨k :: r, List.cons_prefix_cons.mpr ⟨rfl, hr⟩, by simp⟩
      · intro hpath
        rcases hpath with hpath | ⟨r, hr, rfl⟩
        · exact .inl (.inl hpath)
        · cases r with
          | nil =>
              rw [List.append_nil]
              exact .inl (.inl ⟨n, hn⟩)
          | cons k' r =>
              obtain ⟨rfl, hrest⟩ := List.cons_prefix_cons.mp hr
              exact .inr ⟨r, hrest, by simp⟩

end PathTree
