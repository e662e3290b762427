import DroidPerf.CodeCacheSound

/-!
# DroidPerf.CodeCacheLifetimeSound

No index of the code cache keeps a pointer to a method that was deleted (`no_dangling_method`).

Here nothing is assumed of the VM: ids repeat, ranges overlap, addresses are loaded twice and
pairs are unloaded that were never loaded. Then the two indexes can hold different methods for
one address, as `RangeSet::insert` keeps the old entry where the group's map takes the new one.
What carries the proof is that a method is filed under its own start address in both:
`removeMethod` deletes what one map holds at an address and clears that address in the other,
or its assertion ends the run.

The invariant is `Alive`. `finishAdd_changes` and `removeMethod_changes` say once what the two
sections that touch the indexes can do, and the three step lemmas (`Alive.beginAdd`,
`Alive.finishAdd`, `Alive.removeMethod`) are proved from these without unfolding the sections
again. `Interleaved.alive` is the induction over runs.
-/

namespace DroidPerf

/-! ### Removal by start

`RangeSet::remove` looks a range up by its start. It needs no disjointness to clear the start:
the map has one entry at most for each key. -/

/-- A removal that succeeds clears the start, whether or not the ranges are disjoint, and adds
nothing. -/
theorem RangeSet.mem_ranges_of_remove {K D : Type} [LinearOrder K] {rs rs' : RangeSet K D}
    {start : K} (h : rs.remove start = (true, rs')) {r : Range K D} (hr : r ∈ rs'.ranges) :
    r ∈ rs.ranges ∧ r.start ≠ start := by
  unfold RangeSet.remove at h
  split at h
  · cases h
  · split at h
    · cases h
      exact RangeSet.mem_ranges_erase.mp hr
    · cases h

namespace CodeCacheManager

/-! ### Runs without a contract

A run is any sequence of critical sections that can take place. The two sections of `addMethod`
are separate events, so other calls come between them. -/

/-- What a critical section needs in order to take place at all: a method has code, and
only a call that has begun can finish. -/
def Allowed (s : CodeCacheManager) : Event → Prop
  | .beginAdd _ codeSize _ => 1 ≤ codeSize
  | .finishAdd newMethod => newMethod ∈ s.pending
  | .removeMethod _ _ => True

/-- The states reached by any order of critical sections. -/
inductive Interleaved : CodeCacheManager → Prop
  | new : Interleaved .new
  | step {s s' : CodeCacheManager} {e : Event} :
      Interleaved s → Allowed s e → s.step e = .ok s' → Interleaved s'

/-! ### What the sections do

Each section is inverted once. `EntryChanged s s' id addr v` says that the entry of the group
of `id` at `addr` is `v` now and that all other entries are as before. -/

section Sections

variable {s s' : CodeCacheManager}

/-- The second section of `addMethod` files the method in its group, and in the range set
unless its start is taken there. -/
theorem finishAdd_changes {p : Nat} (h : s.finishAdd p = .ok s') :
    ∃ m, s.methods[p]? = some m ∧ EntryChanged s s' m.methodId m.startAddr (some p) ∧
      s'.pending = s.pending.erase p ∧ s'.deleted = s.deleted ∧
      ∀ r ∈ s'.methodRangeSet.ranges, r ∈ s.methodRangeSet.ranges ∨
        r.start = m.startAddr ∧ r.data = p := by
  unfold finishAdd at h
  split at h
  · cases h
  · rename_i m hm
    split at h
    · cases h
    · rename_i group hgroup
      obtain ⟨⟨inserted, rs'⟩, hinsert, h⟩ := bind_eq_ok.mp h
      obtain ⟨-, -, h⟩ := bind_eq_ok.mp h
      cases h
      refine ⟨m, hm, ⟨rfl, fun q hq => List.mem_of_mem_erase hq, group, _, hgroup, rfl, ?_⟩, rfl,
        rfl, ?_⟩
      · intro addr'
        by_cases haddr : addr' = m.startAddr
        · rw [haddr, AList.lookup_insert, if_pos rfl]
        · rw [AList.lookup_insert_ne haddr, if_neg haddr]
      · intro r hr
        have hle : m.startAddr ≤ sub64 (add64 m.startAddr m.codeSize) 1 := by
          unfold RangeSet.insert at hinsert
          split at hinsert
          · assumption
          · cases hinsert
        obtain ⟨rs'', hinsert', hranges⟩ := s.methodRangeSet.insert_of_le hle p
        rw [hinsert] at hinsert'
        cases hinsert'
        rcases (hranges r).mp hr with hr | ⟨rfl, -⟩
        · exact .inl hr
        · exact .inr ⟨rfl, rfl⟩

/-- `removeMethod` does nothing for an unknown id. Otherwise it deletes what the group holds at
the address and clears the address in both indexes. What it deletes and what the range set held
at the address may be two different methods. -/
theorem removeMethod_changes {id addr : Nat} (h : s.removeMethod id addr = .ok s') :
    s' = s ∨ EntryChanged s s' id addr none ∧ s'.pending = s.pending ∧
      s'.deleted = (s.entry id addr).toList ++ s.deleted ∧
      ∀ r ∈ s'.methodRangeSet.ranges, r ∈ s.methodRangeSet.ranges ∧ r.start ≠ addr := by
  unfold removeMethod at h
  cases hgroup : s.methodIdMap.lookup id with
  | none =>
      simp only [hgroup] at h
      cases h
      exact .inl rfl
  | some group =>
      simp only [hgroup] at h
      obtain ⟨_, hremoved, h⟩ := bind_eq_ok.mp h
      cases h
      have hremove : s.methodRangeSet.remove addr = (true, (s.methodRangeSet.remove addr).2) := by
        rw [← assert_eq_ok.mp hremoved]
      refine .inr ⟨⟨rfl, fun q hq => hq, ?_⟩, rfl, ?_, fun r hr => ?_⟩
      · unfold removeMethodByAddr
        cases hlook : group.addressMethodMap.lookup addr with
        | none =>
            refine ⟨group, group.addressMethodMap, hgroup, rfl, fun addr' => ?_⟩
            by_cases haddr : addr' = addr
            · rw [haddr, hlook, if_pos rfl]
            · rw [if_neg haddr]
        | some p =>
            refine ⟨group, _, hgroup, rfl, fun addr' => ?_⟩
            by_cases haddr : addr' = addr
            · rw [haddr, AList.lookup_erase, if_pos rfl]
            · rw [AList.lookup_erase_ne haddr, if_neg haddr]
      · simp only [CodeCacheManager.entry, hgroup, Option.bind_some, removeMethodByAddr]
        cases group.addressMethodMap.lookup addr <;> rfl
      · exact RangeSet.mem_ranges_of_remove hremove hr

end Sections

/-! ### The invariant

An object is made by `beginAdd` and pending until `finishAdd` files it; once deleted it is in
no index, and no other object gets its number. -/

/-- The indexes refer to methods that are not deleted. That an entry is filed under the start
address of its method is part of it: a removal at an address can then not leave a pointer
behind. -/
structure Alive (s : CodeCacheManager) : Prop where
  group : ∀ id group, s.methodIdMap.lookup id = some group → group.methodId = id
  /-- A group holds its own methods, each under its start address. -/
  entry : ∀ id addr p, s.entry id addr = some p →
    (∃ m, s.methods[p]? = some m ∧ m.methodId = id ∧ m.startAddr = addr) ∧
      p ∉ s.deleted ∧ p ∉ s.pending
  /-- The range set holds a method under its start address. -/
  range : ∀ r ∈ s.methodRangeSet.ranges,
    (∃ m, s.methods[r.data]? = some m ∧ r.start = m.startAddr) ∧ r.data ∉ s.deleted
  /-- A call in progress has a method of its own. -/
  pending : s.pending.Nodup ∧ ∀ p ∈ s.pending, p < s.methods.length ∧ p ∉ s.deleted
  deleted : ∀ p ∈ s.deleted, p < s.methods.length

/-- There is nothing in a new code cache. -/
theorem alive_new : Alive .new where
  group id group h := by simp [new] at h
  entry id addr p h := by simp [CodeCacheManager.entry, new] at h
  range r h := by simp [new, RangeSet.empty, RangeSet.ranges, SortedMap.empty] at h
  pending := ⟨.nil, fun p hp => nomatch hp⟩
  deleted p hp := nomatch hp

section Steps

variable {s s' : CodeCacheManager}

/-- The first section of `addMethod` makes an object and touches no index. -/
theorem Alive.beginAdd (h : Alive s) (id codeSize codeAddr : Nat) :
    Alive (s.beginAdd id codeSize codeAddr) := by
  have hlen : (s.beginAdd id codeSize codeAddr).methods.length = s.methods.length + 1 := by
    simp [CodeCacheManager.beginAdd]
  have hold : ∀ {p : Nat} {m : CompiledMethod}, s.methods[p]? = some m →
      (s.beginAdd id codeSize codeAddr).methods[p]? = some m := by
    intro p m hm
    have hp := (List.getElem?_eq_some_iff.mp hm).1
    simp only [CodeCacheManager.beginAdd, List.getElem?_append_left hp, hm]
  have hfresh : ∀ {p : Nat} {m : CompiledMethod}, s.methods[p]? = some m →
      p ≠ s.methods.length := by
    intro p m hm
    exact (List.getElem?_eq_some_iff.mp hm).1.ne
  refine ⟨?_, ?_, ?_, ⟨?_, ?_⟩, ?_⟩
  · intro id' group hgroup
    by_cases hid : id' = id
    · subst hid
      simp only [CodeCacheManager.beginAdd, AList.lookup_insert, Option.some.injEq] at hgroup
      subst hgroup
      cases hlook : s.methodIdMap.lookup id' with
      | none => rfl
      | some group => exact h.group id' group hlook
    · simp only [CodeCacheManager.beginAdd, AList.lookup_insert_ne hid] at hgroup
      exact h.group id' group hgroup
  · intro id' addr p hp
    rw [entry_beginAdd] at hp
    obtain ⟨⟨m, hm, hid, haddr⟩, hdeleted, hpending⟩ := h.entry id' addr p hp
    refine ⟨⟨m, hold hm, hid, haddr⟩, hdeleted, fun hmem => ?_⟩
    rcases List.mem_cons.mp hmem with heq | hmem
    · exact hfresh hm heq
    · exact hpending hmem
  · intro r hr
    obtain ⟨⟨m, hm, hstart⟩, hdeleted⟩ := h.range r hr
    exact ⟨⟨m, hold hm, hstart⟩, hdeleted⟩
  · -- the new number is the length of the list, so it is not pending yet
    refine List.nodup_cons.mpr ⟨fun hmem => ?_, h.pending.1⟩
    exact absurd (h.pending.2 _ hmem).1 (Nat.lt_irrefl _)
  · intro p hp
    rw [hlen]
    rcases List.mem_cons.mp hp with rfl | hp
    · -- the new object: nothing deleted has its number
      exact ⟨Nat.lt_succ_self _, fun hmem => absurd (h.deleted _ hmem) (Nat.lt_irrefl _)⟩
    · exact ⟨Nat.lt_succ_of_lt (h.pending.2 p hp).1, (h.pending.2 p hp).2⟩
  · intro p hp
    rw [hlen]
    exact Nat.lt_succ_of_lt (h.deleted p hp)

/-- A group keeps its id when one of its entries changes. -/
theorem EntryChanged.group {id addr : Nat} {v : Option Nat} (hs : EntryChanged s s' id addr v)
    (h : ∀ id group, s.methodIdMap.lookup id = some group → group.methodId = id) :
    ∀ id group, s'.methodIdMap.lookup id = some group → group.methodId = id := by
  intro id' group' hgroup'
  obtain ⟨group, hgroup, hid, -⟩ := hs.exists_group hgroup'
  exact hid.symm.trans (h id' group hgroup)

/-- The second section files an object that is pending, hence not deleted. -/
theorem Alive.finishAdd (h : Alive s) {p : Nat} (hp : p ∈ s.pending)
    (hstep : s.finishAdd p = .ok s') : Alive s' := by
  obtain ⟨m, hm, hs, hpending, hdeleted, hranges⟩ := finishAdd_changes hstep
  have hentry := hs.entry
  have hgroup := hs.group h.group
  refine ⟨hgroup, ?_, ?_, ⟨?_, ?_⟩, ?_⟩
  · intro id addr q hq
    rw [hs.methods_eq, hdeleted, hpending]
    rw [hentry] at hq
    split at hq
    · rename_i heq
      cases hq
      exact ⟨⟨m, hm, heq.1.symm, heq.2.symm⟩, (h.pending.2 p hp).2, h.pending.1.not_mem_erase⟩
    · obtain ⟨hmethod, hnot, hnot'⟩ := h.entry id addr q hq
      exact ⟨hmethod, hnot, fun hmem => hnot' (List.mem_of_mem_erase hmem)⟩
  · intro r hr
    rw [hs.methods_eq, hdeleted]
    rcases hranges r hr with hr | ⟨hstart, hdata⟩
    · exact h.range r hr
    · rw [hdata]
      exact ⟨⟨m, hm, hstart⟩, (h.pending.2 p hp).2⟩
  · rw [hpending]
    exact h.pending.1.erase p
  · intro q hq
    rw [hs.methods_eq, hdeleted]
    exact h.pending.2 q (hs.pending_sub q hq)
  · rw [hs.methods_eq, hdeleted]
    exact h.deleted

/-- The method in an entry is of the id and at the address it is filed under. -/
theorem Alive.filed (h : Alive s) {id addr p : Nat} (hp : s.entry id addr = some p)
    {m : CompiledMethod} (hm : s.methods[p]? = some m) : m.methodId = id ∧ m.startAddr = addr := by
  obtain ⟨⟨m', hm', hfiled⟩, -, -⟩ := h.entry id addr p hp
  rw [hm] at hm'
  cases hm'
  exact hfiled

/-- What is deleted was filed under the address that both indexes lose. -/
theorem Alive.removeMethod (h : Alive s) {id addr : Nat}
    (hstep : s.removeMethod id addr = .ok s') : Alive s' := by
  obtain rfl | ⟨hs, hpending, hdeleted, hranges⟩ := removeMethod_changes hstep
  · exact h
  have hentry := hs.entry
  -- what is deleted now was filed under the id and the address
  have hgone : ∀ {q}, q ∈ s'.deleted → q ∈ s.deleted ∨ s.entry id addr = some q := by
    intro q hq
    rw [hdeleted] at hq
    rcases List.mem_append.mp hq with hq | hq
    · exact .inr (Option.mem_toList.mp hq)
    · exact .inl hq
  refine ⟨hs.group h.group, ?_, ?_, ⟨?_, ?_⟩, ?_⟩
  · -- an entry that is left is at another id or address than the deleted object was
    intro id' addr' p hp
    rw [hs.methods_eq, hpending]
    rw [hentry] at hp
    split at hp
    · cases hp
    · rename_i hother
      obtain ⟨⟨m, hm, rfl, rfl⟩, hnot, hnot'⟩ := h.entry id' addr' p hp
      refine ⟨⟨m, hm, rfl, rfl⟩, fun hmem => ?_, hnot'⟩
      rcases hgone hmem with hmem | hmem
      · exact hnot hmem
      · exact hother (h.filed hmem hm)
  · -- a range that is left starts elsewhere, and the deleted object started at the address
    intro r hr
    obtain ⟨hr, hne⟩ := hranges r hr
    obtain ⟨⟨m, hm, hstart⟩, hnot⟩ := h.range r hr
    rw [hs.methods_eq]
    refine ⟨⟨m, hm, hstart⟩, fun hmem => ?_⟩
    rcases hgone hmem with hmem | hmem
    · exact hnot hmem
    · exact hne (hstart.trans (h.filed hmem hm).2)
  · rw [hpending]
    exact h.pending.1
  · intro p hp
    rw [hpending] at hp
    rw [hs.methods_eq]
    refine ⟨(h.pending.2 p hp).1, fun hmem => ?_⟩
    rcases hgone hmem with hmem | hmem
    · exact (h.pending.2 p hp).2 hmem
    · exact (h.entry id addr p hmem).2.2 hp
  · intro p hp
    rw [hs.methods_eq]
    rcases hgone hp with hp | hp
    · exact h.deleted p hp
    · obtain ⟨⟨m, hm, -, -⟩, -, -⟩ := h.entry id addr p hp
      exact (List.getElem?_eq_some_iff.mp hm).1

theorem Alive.step (h : Alive s) {e : Event} (hallowed : Allowed s e) (hstep : s.step e = .ok s') :
    Alive s' := by
  cases e with
  | beginAdd id codeSize codeAddr =>
      cases hstep
      exact h.beginAdd id codeSize codeAddr
  | finishAdd p => exact h.finishAdd hallowed hstep
  | removeMethod id addr => exact h.removeMethod hstep

end Steps

/-- **The invariant holds in every run.** -/
theorem Interleaved.alive {s : CodeCacheManager} (hs : Interleaved s) : Alive s := by
  induction hs with
  | new => exact alive_new
  | step _ hallowed hstep ih => exact ih.step hallowed hstep

/-- A lookup by address returns what some range holds. -/
theorem exists_range_of_getMethod {s : CodeCacheManager} {a p : Nat} (h : s.getMethod a = some p) :
    ∃ r ∈ s.methodRangeSet.ranges, r.data = p := by
  obtain ⟨r, hr, rfl⟩ := Option.map_eq_some_iff.mp h
  exact ⟨r, (RangeSet.mem_of_getRange hr).1, rfl⟩

/-- **No dangling method.** Whatever the order of additions and removals and whatever their
arguments, no index holds a deleted method: the methods that `getMethod` returns, and that
`findMethodByAddr` reads, exist and have not been deleted. -/
theorem no_dangling_method {s : CodeCacheManager} (hs : Interleaved s) :
    (∀ id addr p, s.entry id addr = some p → p < s.methods.length ∧ p ∉ s.deleted) ∧
    (∀ r ∈ s.methodRangeSet.ranges, r.data < s.methods.length ∧ r.data ∉ s.deleted) ∧
    (∀ a p, s.getMethod a = some p → p < s.methods.length ∧ p ∉ s.deleted) ∧
    (∀ a id v, s.findMethodByAddr a = some (id, v) ↔ ∃ p m, s.getMethod a = some p ∧
      p ∉ s.deleted ∧ s.methods[p]? = some m ∧ m.methodId = id ∧ m.version = v) := by
  have h := hs.alive
  have hranges : ∀ r ∈ s.methodRangeSet.ranges, r.data < s.methods.length ∧ r.data ∉ s.deleted := by
    intro r hr
    obtain ⟨⟨m, hm, -⟩, hnot⟩ := h.range r hr
    exact ⟨(List.getElem?_eq_some_iff.mp hm).1, hnot⟩
  have hget : ∀ a p, s.getMethod a = some p → p < s.methods.length ∧ p ∉ s.deleted := by
    intro a p hp
    obtain ⟨r, hr, rfl⟩ := exists_range_of_getMethod hp
    exact hranges r hr
  refine ⟨fun id addr p hp => ?_, hranges, hget, fun a id v => ?_⟩
  · obtain ⟨⟨m, hm, -, -⟩, hnot, -⟩ := h.entry id addr p hp
    exact ⟨(List.getElem?_eq_some_iff.mp hm).1, hnot⟩
  · have hfind : s.findMethodByAddr a = (s.getMethod a).bind fun p =>
        s.methods[p]?.map fun m => (m.methodId, m.version) := rfl
    rw [hfind, Option.bind_eq_some_iff]
    constructor
    · intro hfound
      obtain ⟨p, hp, hread⟩ := hfound
      obtain ⟨m, hm, hpair⟩ := Option.map_eq_some_iff.mp hread
      obtain ⟨hid, hversion⟩ := Prod.mk.inj hpair
      exact ⟨p, m, hp, (hget a p hp).2, hm, hid, hversion⟩
    · intro hfound
      obtain ⟨p, m, hp, -, hm, rfl, rfl⟩ := hfound
      exact ⟨p, hp, by rw [hm]; rfl⟩

/-- A method is loaded twice at one address: the group holds the second object, the range
set still the first, and a lookup finds that one alive. When the method is unloaded, the second
object is deleted, and lookups find what has another address. -/
theorem no_dangling_method_loaded_twice :
    ∃ s s', Interleaved s ∧ s.entry 7 4096 = some 1 ∧ s.getMethod 4100 = some 0 ∧
      0 ∉ s.deleted ∧ 1 ∉ s.deleted ∧
      s.step (.removeMethod 7 4096) = .ok s' ∧ Interleaved s' ∧ s'.deleted = [1] ∧
      s'.getMethod 8200 = some 2 ∧ 2 ∉ s'.deleted := by
  have hs₁ : Interleaved (new.beginAdd 7 16 4096) :=
    .step (e := .beginAdd 7 16 4096) .new (show 1 ≤ 16 by decide) rfl
  have hs₂ : Interleaved ((new.beginAdd 7 16 4096).beginAdd 7 32 4096) :=
    .step (e := .beginAdd 7 32 4096) hs₁ (show 1 ≤ 32 by decide) rfl
  have hs₃ := Interleaved.step (e := .beginAdd 9 16 8192) hs₂ (show 1 ≤ 16 by decide) rfl
  have hs₄ := Interleaved.step (e := .finishAdd 0) hs₃ (show 0 ∈ [2, 1, 0] by decide) rfl
  have hs₅ := Interleaved.step (e := .finishAdd 1) hs₄ (show 1 ∈ [2, 1] by decide) rfl
  have hs := Interleaved.step (e := .finishAdd 2) hs₅ (show 2 ∈ [2] by decide) rfl
  have hs' := Interleaved.step (e := .removeMethod 7 4096) hs trivial rfl
  obtain ⟨hentry, -, hget, -⟩ := no_dangling_method hs
  obtain ⟨-, -, hget', -⟩ := no_dangling_method hs'
  exact ⟨_, _, hs, rfl, rfl, (hget 4100 0 rfl).2, (hentry 7 4096 1 rfl).2, rfl, hs', rfl, rfl,
    (hget' 8200 2 rfl).2⟩

end CodeCacheManager

end DroidPerf
