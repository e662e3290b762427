import DroidPerf.CodeCache

/-!
# DroidPerf.CodeCacheSound

The two indexes of the code cache agree (`indexes_agree`).

`Contract` is what the VM promises about its load and unload events. The invariant `Agree` says
what the group maps and the range set hold in terms of the methods that are stored; it is kept
by each critical section (`agree_beginAdd`, `agree_finishAdd`, `agree_removeMethod`) and gives
the answer of every lookup. A call that has begun but not finished is in neither index: between
its two sections it only accounts for a version.

`Stored s p m` is the abstract view: object `p` is the method `m`, filed under its own id and
start. Everything that is looked up is told in terms of it. The two sections that change the
indexes change one entry of one group (`EntryChanged`) and one range; what has then to be shown
is the same for both (`EntryChanged.agree`), and only the range set needs an argument of its
own (`ranges_add`, `ranges_remove`): a range determines its method because the ranges are
disjoint, which is the VM's promise that code is loaded where no other code is.

For the lookup by id, the versions of an id grow with the calls of `addMethod` (they do not
wrap around within 2^32 calls), so the greatest version among the stored methods is the call
that began last, in whatever order the hash map is iterated.
-/

namespace DroidPerf

/-- The last address of a method. -/
def CompiledMethod.endAddr (m : CompiledMethod) : Nat := m.startAddr + m.codeSize - 1

namespace CodeCacheManager

/-! ### The contract and its runs

The contract is about the arguments of an event and the state it meets, so a run can be any
interleaving of calls that respects it. -/

/-- The number of `addMethod` calls for an id among some calls. -/
def adds (methods : List CompiledMethod) (methodId : Nat) : Nat :=
  methods.countP fun m => m.methodId = methodId

/-- What is assumed of the VM at each event: a method has code, inside the address
space; it is loaded where no other method is; what is unloaded was loaded; and an id
is compiled fewer than 2^32 times. -/
def Contract (s : CodeCacheManager) : Event → Prop
  | .beginAdd methodId codeSize codeAddr =>
    1 ≤ codeSize ∧ codeAddr + codeSize ≤ 2 ^ 64 ∧ adds s.methods methodId + 1 < 2 ^ 32
  | .finishAdd newMethod =>
    newMethod ∈ s.pending ∧ ∀ m, s.methods[newMethod]? = some m →
      ∀ r ∈ s.methodRangeSet.ranges, r.stop < m.startAddr ∨ m.endAddr < r.start
  | .removeMethod methodId codeAddr =>
    ∃ group, s.methodIdMap.lookup methodId = some group ∧ codeAddr ∈ group.addressMethodMap

/-- The states reached by any order of critical sections that respects the
contract. -/
inductive Reachable : CodeCacheManager → Prop
  | new : Reachable .new
  | step {s s' : CodeCacheManager} {e : Event} :
      Reachable s → Contract s e → s.step e = .ok s' → Reachable s'

/-! ### The invariant

The invariant has a part for each thing that a section or a lookup relies on: the groups with
their counters, the versions, the entries, the ranges. -/

/-- The method that the group of an id holds under an address. -/
def entry (s : CodeCacheManager) (methodId addr : Nat) : Option Nat :=
  (s.methodIdMap.lookup methodId).bind fun group => group.addressMethodMap.lookup addr

/-- The object `p` is a method stored in the group of its own id under its start
address. -/
def Stored (s : CodeCacheManager) (p : Nat) (m : CompiledMethod) : Prop :=
  s.methods[p]? = some m ∧ s.entry m.methodId m.startAddr = some p

/-- The indexes agree. -/
structure Agree (s : CodeCacheManager) : Prop where
  /-- A group is stored under its own id, and its counter counts the calls. -/
  group : ∀ id group, s.methodIdMap.lookup id = some group →
    group.methodId = id ∧ group.recentVersion = adds s.methods id
  /-- An id without a group has not been added. -/
  no_group : ∀ id, s.methodIdMap.lookup id = none → adds s.methods id = 0
  adds_lt : ∀ id, adds s.methods id < 2 ^ 32
  /-- The version of a method is its rank among the calls for its id. -/
  version : ∀ p m, s.methods[p]? = some m →
    m.version = adds (s.methods.take (p + 1)) m.methodId
  code : ∀ m ∈ s.methods, 1 ≤ m.codeSize ∧ m.startAddr + m.codeSize ≤ 2 ^ 64
  pending : ∀ p ∈ s.pending, p < s.methods.length
  entry : ∀ id addr p, s.entry id addr = some p →
    ∃ m, s.methods[p]? = some m ∧ m.methodId = id ∧ m.startAddr = addr
  ranges : ∀ r, r ∈ s.methodRangeSet.ranges ↔
    ∃ m, Stored s r.data m ∧ r.start = m.startAddr ∧ r.stop = m.endAddr
  disjoint : s.methodRangeSet.Disjoint

/-- A new code cache has neither groups nor ranges. -/
theorem agree_new : Agree .new where
  group id group h := by simp [new] at h
  no_group id _ := rfl
  adds_lt id := by simp [new, adds]
  version p m h := by simp [new] at h
  code m h := by simp [new] at h
  pending p h := by simp [new] at h
  entry id addr p h := by simp [CodeCacheManager.entry, new] at h
  ranges r := by
    simp [new, RangeSet.empty, RangeSet.ranges, SortedMap.empty, Stored]
  disjoint r hr := by simp [new, RangeSet.empty, RangeSet.ranges, SortedMap.empty] at hr

/-- One more call counts for its own id. -/
theorem adds_append_singleton (methods : List CompiledMethod) (m : CompiledMethod) (id : Nat) :
    adds (methods ++ [m]) id = adds methods id + if m.methodId = id then 1 else 0 := by
  simp [adds, List.countP_append, List.countP_cons]

/-! ### Beginning an add

The first section makes the group if there is none and takes a version. It files nothing, so
entries and ranges are those of before; what changes is the list of objects and a counter. -/

section Begin

variable {s : CodeCacheManager} {id codeSize codeAddr : Nat}

/-- A new group is empty, so no entry appears. -/
theorem entry_beginAdd (id' addr : Nat) :
    (s.beginAdd id codeSize codeAddr).entry id' addr = s.entry id' addr := by
  unfold entry beginAdd
  by_cases hid : id' = id
  · subst hid
    simp only [AList.lookup_insert, Option.bind_some]
    cases s.methodIdMap.lookup id' with
    | none => simp
    | some group => rfl
  · simp only [AList.lookup_insert_ne hid]

/-- The group on which the first section works. -/
theorem Agree.group_getD (h : Agree s) (id : Nat) :
    ((s.methodIdMap.lookup id).getD ⟨id, 0, ∅⟩).methodId = id ∧
      ((s.methodIdMap.lookup id).getD ⟨id, 0, ∅⟩).recentVersion = adds s.methods id := by
  cases hlook : s.methodIdMap.lookup id with
  | none => exact ⟨rfl, (h.no_group id hlook).symm⟩
  | some group => exact h.group id group hlook

/-- The version does not wrap around. -/
theorem Agree.next_version (h : Agree s) (hlt : adds s.methods id + 1 < 2 ^ 32) :
    (((s.methodIdMap.lookup id).getD ⟨id, 0, ∅⟩).recentVersion + 1) % 2 ^ 32 =
      adds s.methods id + 1 := by
  rw [(h.group_getD id).2, Nat.mod_eq_of_lt hlt]

/-- The object gets the next version of its id. -/
theorem Agree.methods_beginAdd (h : Agree s) (hlt : adds s.methods id + 1 < 2 ^ 32) :
    (s.beginAdd id codeSize codeAddr).methods =
      s.methods ++ [⟨id, adds s.methods id + 1, codeSize, codeAddr⟩] := by
  simp only [beginAdd, (h.group_getD id).1, h.next_version hlt]

theorem Agree.adds_beginAdd (h : Agree s) (hlt : adds s.methods id + 1 < 2 ^ 32) (id' : Nat) :
    adds (s.beginAdd id codeSize codeAddr).methods id' =
      adds s.methods id' + if id = id' then 1 else 0 := by
  rw [h.methods_beginAdd hlt, adds_append_singleton]

/-- The counter of a group counts the calls for its id. -/
theorem Agree.group_beginAdd (h : Agree s) (hlt : adds s.methods id + 1 < 2 ^ 32) {id' : Nat}
    {group : CompiledMethodGroup}
    (hg : (s.beginAdd id codeSize codeAddr).methodIdMap.lookup id' = some group) :
    group.methodId = id' ∧
      group.recentVersion = adds (s.beginAdd id codeSize codeAddr).methods id' := by
  rw [h.adds_beginAdd hlt]
  by_cases hid : id' = id
  · subst hid
    simp only [beginAdd, AList.lookup_insert, Option.some.injEq] at hg
    subst hg
    exact ⟨(h.group_getD id').1, by simp only [h.next_version hlt, if_true]⟩
  · simp only [beginAdd, AList.lookup_insert_ne hid] at hg
    rw [if_neg (Ne.symm hid)]
    exact h.group id' group hg

/-- The version of an object is the number of calls for its id up to its own. -/
theorem Agree.version_beginAdd (h : Agree s) (hlt : adds s.methods id + 1 < 2 ^ 32) {p : Nat}
    {m : CompiledMethod} (hm : (s.beginAdd id codeSize codeAddr).methods[p]? = some m) :
    m.version = adds ((s.beginAdd id codeSize codeAddr).methods.take (p + 1)) m.methodId := by
  rw [h.methods_beginAdd hlt] at hm ⊢
  have hp : p < s.methods.length + 1 := by
    simpa using (List.getElem?_eq_some_iff.mp hm).1
  rcases Nat.lt_succ_iff_lt_or_eq.mp hp with hp | rfl
  · rw [List.getElem?_append_left hp] at hm
    rw [List.take_append_of_le_length hp]
    exact h.version p m hm
  · rw [List.getElem?_concat_length] at hm
    cases hm
    rw [List.take_of_length_le (by simp), adds_append_singleton, if_pos rfl]

/-- The entries keep pointing at the same methods. -/
theorem Agree.entry_beginAdd_method (h : Agree s) (hlt : adds s.methods id + 1 < 2 ^ 32)
    {id' addr p : Nat} (hp : s.entry id' addr = some p) :
    (s.beginAdd id codeSize codeAddr).methods[p]? = s.methods[p]? := by
  obtain ⟨m, hm, -, -⟩ := h.entry id' addr p hp
  rw [h.methods_beginAdd hlt, List.getElem?_append_left (List.getElem?_eq_some_iff.mp hm).1]

/-- **The first section keeps the indexes in agreement.** -/
theorem agree_beginAdd (h : Agree s) (hc : Contract s (.beginAdd id codeSize codeAddr)) :
    Agree (s.beginAdd id codeSize codeAddr) := by
  obtain ⟨hsize, hend, hlt⟩ := hc
  have hmethods : (s.beginAdd id codeSize codeAddr).methods = _ := h.methods_beginAdd hlt
  refine ⟨fun _ _ => h.group_beginAdd hlt, ?_, ?_, fun _ _ => h.version_beginAdd hlt, ?_, ?_, ?_,
    ?_, h.disjoint⟩
  · -- an id that has no group is another one, and was not added
    intro id' hnone
    by_cases hid : id' = id
    · subst hid
      simp [beginAdd] at hnone
    · simp only [beginAdd, AList.lookup_insert_ne hid] at hnone
      rw [h.adds_beginAdd hlt, if_neg (Ne.symm hid)]
      exact h.no_group id' hnone
  · intro id'
    rw [h.adds_beginAdd hlt]
    split
    · rename_i hid
      exact hid ▸ hlt
    · exact h.adds_lt id'
  · intro m hm
    rw [hmethods, List.mem_append, List.mem_singleton] at hm
    rcases hm with hm | rfl
    · exact h.code m hm
    · exact ⟨hsize, hend⟩
  · intro p hp
    rw [hmethods, List.length_append, List.length_singleton]
    rcases List.mem_cons.mp hp with rfl | hp
    · exact Nat.lt_succ_self _
    · exact Nat.lt_succ_of_lt (h.pending p hp)
  · intro id' addr p hp
    rw [entry_beginAdd] at hp
    rw [h.entry_beginAdd_method hlt hp]
    exact h.entry id' addr p hp
  · -- the ranges stay, and so do the methods that their data point at
    intro r
    refine (h.ranges r).trans (exists_congr fun m => and_congr_left' ?_)
    unfold Stored
    rw [entry_beginAdd]
    refine and_congr_left fun hp => ?_
    rw [h.entry_beginAdd_method hlt hp]

end Begin

/-! ### Finishing an add

The second section files the object. Under the contract its range is free of others, so the
range set takes it and the assertion holds. -/

/-- The 64-bit arithmetic of the call finds the last address of the code. -/
theorem endAddr_eq {m : CompiledMethod} (h : 1 ≤ m.codeSize ∧ m.startAddr + m.codeSize ≤ 2 ^ 64) :
    sub64 (add64 m.startAddr m.codeSize) 1 = m.endAddr := by
  unfold sub64 add64 CompiledMethod.endAddr
  omega

section Finish

variable {s : CodeCacheManager} {p : Nat} {m : CompiledMethod} {group : CompiledMethodGroup}

/-- The state `s'` differs from `s` in one entry of one group, which is now `v`. Calls that
were pending may have ended. -/
structure EntryChanged (s s' : CodeCacheManager) (id addr : Nat) (v : Option Nat) : Prop where
  methods_eq : s'.methods = s.methods
  pending_sub : ∀ p ∈ s'.pending, p ∈ s.pending
  map_eq : ∃ group map, s.methodIdMap.lookup id = some group ∧
    s'.methodIdMap = s.methodIdMap.insert id { group with addressMethodMap := map } ∧
    ∀ addr', map.lookup addr' = if addr' = addr then v else group.addressMethodMap.lookup addr'

/-- The entry of the method is the new one, and all others are as before. -/
theorem EntryChanged.entry {s' : CodeCacheManager} {id addr : Nat} {v : Option Nat}
    (hs : EntryChanged s s' id addr v) (id' addr' : Nat) :
    s'.entry id' addr' = if id' = id ∧ addr' = addr then v else s.entry id' addr' := by
  obtain ⟨group, map, hgroup, hmap, hlook⟩ := hs.map_eq
  unfold CodeCacheManager.entry
  rw [hmap]
  by_cases hid : id' = id
  · subst hid
    rw [AList.lookup_insert, hgroup]
    simp [hlook]
  · rw [AList.lookup_insert_ne hid, if_neg fun h => hid h.1]

/-- The groups keep their ids and their counters. -/
theorem EntryChanged.lookup_eq {s' : CodeCacheManager} {id addr : Nat} {v : Option Nat}
    (hs : EntryChanged s s' id addr v) (id' : Nat) :
    ((s'.methodIdMap.lookup id').map fun group => (group.methodId, group.recentVersion)) =
      (s.methodIdMap.lookup id').map fun group => (group.methodId, group.recentVersion) := by
  obtain ⟨group, map, hgroup, hmap, -⟩ := hs.map_eq
  rw [hmap]
  by_cases hid : id' = id
  · subst hid
    rw [AList.lookup_insert, hgroup]
    rfl
  · rw [AList.lookup_insert_ne hid]

/-- Every group was there before, with its id and its counter. -/
theorem EntryChanged.exists_group {s' : CodeCacheManager} {id addr id' : Nat} {v : Option Nat}
    {group' : CompiledMethodGroup} (hs : EntryChanged s s' id addr v)
    (h : s'.methodIdMap.lookup id' = some group') :
    ∃ group, s.methodIdMap.lookup id' = some group ∧ group.methodId = group'.methodId ∧
      group.recentVersion = group'.recentVersion := by
  have hkeep := hs.lookup_eq id'
  rw [h, Option.map_some] at hkeep
  obtain ⟨group, hgroup, heq⟩ := Option.map_eq_some_iff.mp hkeep.symm
  exact ⟨group, hgroup, congrArg Prod.fst heq, congrArg Prod.snd heq⟩

/-- What has to be shown of such a change: that the entry is the right one, and that the ranges
still follow the entries and are disjoint. -/
theorem EntryChanged.agree {s' : CodeCacheManager} {id addr : Nat} {v : Option Nat}
    (hs : EntryChanged s s' id addr v) (h : Agree s)
    (hv : ∀ p, v = some p → ∃ m, s.methods[p]? = some m ∧ m.methodId = id ∧ m.startAddr = addr)
    (hranges : ∀ r, r ∈ s'.methodRangeSet.ranges ↔
      ∃ m, Stored s' r.data m ∧ r.start = m.startAddr ∧ r.stop = m.endAddr)
    (hdisj : s'.methodRangeSet.Disjoint) : Agree s' := by
  have hmethods := hs.methods_eq
  refine ⟨?_, ?_, ?_, ?_, ?_, ?_, ?_, hranges, hdisj⟩
  · intro id' group' hgroup'
    obtain ⟨group, hgroup, hid, hversion⟩ := hs.exists_group hgroup'
    rw [hmethods, ← hid, ← hversion]
    exact h.group id' group hgroup
  · intro id' hnone
    have hkeep := hs.lookup_eq id'
    rw [hnone, Option.map_none] at hkeep
    rw [hmethods]
    exact h.no_group id' (Option.map_eq_none_iff.mp hkeep.symm)
  · rw [hmethods]
    exact h.adds_lt
  · rw [hmethods]
    exact h.version
  · rw [hmethods]
    exact h.code
  · intro p hp
    rw [hmethods]
    exact h.pending p (hs.pending_sub p hp)
  · intro id' addr' p hp
    rw [hmethods]
    rw [hs.entry] at hp
    split at hp
    · rename_i heq
      rw [heq.1, heq.2]
      exact hv p hp
    · exact h.entry id' addr' p hp

/-- The id of an allocated method has a group. -/
theorem Agree.exists_group (h : Agree s) (hm : s.methods[p]? = some m) :
    ∃ group, s.methodIdMap.lookup m.methodId = some group := by
  cases hlook : s.methodIdMap.lookup m.methodId with
  | some group => exact ⟨group, rfl⟩
  | none =>
      have hzero := h.no_group _ hlook
      have hpos : 0 < adds s.methods m.methodId :=
        List.countP_pos_iff.mpr ⟨m, List.mem_of_getElem? hm, by simp⟩
      omega

/-- Nothing is stored under an address where no range starts. -/
theorem Agree.entry_eq_none {id addr : Nat} (h : Agree s)
    (hfresh : ∀ r ∈ s.methodRangeSet.ranges, r.start ≠ addr) : s.entry id addr = none := by
  by_contra hsome
  obtain ⟨q, hq⟩ := Option.ne_none_iff_exists'.mp hsome
  obtain ⟨m, hm, rfl, rfl⟩ := h.entry _ _ _ hq
  exact hfresh ⟨m.startAddr, m.endAddr, q⟩ ((h.ranges _).mpr ⟨m, ⟨hm, hq⟩, rfl, rfl⟩) rfl

/-- Adding the range of a method to the set follows adding its entry: the start was free, so
the entry takes nothing away. -/
theorem EntryChanged.ranges_add {s' : CodeCacheManager} (h : Agree s)
    (hm : s.methods[p]? = some m) (hs : EntryChanged s s' m.methodId m.startAddr (some p))
    (hnone : s.entry m.methodId m.startAddr = none)
    (hranges : ∀ r, r ∈ s'.methodRangeSet.ranges ↔ r ∈ s.methodRangeSet.ranges ∨
      r = ⟨m.startAddr, m.endAddr, p⟩) (r : Range Nat Nat) :
    r ∈ s'.methodRangeSet.ranges ↔
      ∃ m, Stored s' r.data m ∧ r.start = m.startAddr ∧ r.stop = m.endAddr := by
  rw [hranges, h.ranges]
  unfold Stored
  simp only [hs.entry, hs.methods_eq]
  constructor
  · intro hold
    rcases hold with ⟨m', ⟨hm', he⟩, hr⟩ | rfl
    · refine ⟨m', ⟨hm', ?_⟩, hr⟩
      rw [if_neg]
      · exact he
      · intro hsame
        obtain ⟨hid, haddr⟩ := hsame
        rw [hid, haddr, hnone] at he
        cases he
    · exact ⟨m, ⟨hm, if_pos ⟨rfl, rfl⟩⟩, rfl, rfl⟩
  · intro hold
    obtain ⟨m', ⟨hm', he⟩, hr⟩ := hold
    split at he
    · cases he
      rw [hm] at hm'
      cases hm'
      obtain ⟨start, stop, data⟩ := r
      obtain ⟨rfl, rfl⟩ := hr
      exact .inr rfl
    · exact .inl ⟨m', ⟨hm', he⟩, hr⟩

/-- The second section succeeds, and stores the method in both indexes. -/
theorem agree_finishAdd (h : Agree s) (hc : Contract s (.finishAdd p)) :
    ∃ s', s.finishAdd p = .ok s' ∧ Agree s' := by
  obtain ⟨hpend, hclear⟩ := hc
  obtain ⟨m, hm⟩ : ∃ m, s.methods[p]? = some m :=
    ⟨_, List.getElem?_eq_getElem (h.pending p hpend)⟩
  have hcode := h.code m (List.mem_of_getElem? hm)
  have hclear := hclear m hm
  obtain ⟨group, hgroup⟩ := h.exists_group hm
  have hle : m.startAddr ≤ m.endAddr := by
    unfold CompiledMethod.endAddr
    omega
  obtain ⟨rs', hins, hranges, hdisj⟩ := RangeSet.insert_of_clear h.disjoint hle hclear p
  -- the start is not taken, since the range is disjoint from the stored ones
  have hnone : s.entry m.methodId m.startAddr = none :=
    h.entry_eq_none fun r hr => RangeSet.start_ne_of_clear hle hclear hr
  refine ⟨{ s with
    methodIdMap := s.methodIdMap.insert m.methodId { group with
      addressMethodMap := group.addressMethodMap.insert m.startAddr p }
    methodRangeSet := rs'
    pending := s.pending.erase p }, ?_, ?_⟩
  · rw [finishAdd, hm]
    simp only [hgroup, endAddr_eq hcode, hins]
    rfl
  have hs : EntryChanged s { s with
      methodIdMap := s.methodIdMap.insert m.methodId { group with
        addressMethodMap := group.addressMethodMap.insert m.startAddr p }
      methodRangeSet := rs'
      pending := s.pending.erase p } m.methodId m.startAddr (some p) := by
    refine ⟨rfl, fun q hq => List.mem_of_mem_erase hq, group, _, hgroup, rfl, fun addr' => ?_⟩
    by_cases haddr : addr' = m.startAddr
    · rw [haddr, AList.lookup_insert, if_pos rfl]
    · rw [AList.lookup_insert_ne haddr, if_neg haddr]
  refine hs.agree h (fun q hq => ?_) (hs.ranges_add h hm hnone hranges) hdisj
  cases hq
  exact ⟨m, hm, rfl, rfl⟩

end Finish

/-! ### Removing

A pair that the contract allows is stored, so the group has an entry and the range set has a
range that starts there. -/

/-- Removing the range of a method from the set follows removing its entry. A range that starts
at another address is not the method's, and one that starts there is. -/
theorem EntryChanged.ranges_remove {s s' : CodeCacheManager} {p : Nat} {m : CompiledMethod}
    (h : Agree s) (hm : Stored s p m) (hs : EntryChanged s s' m.methodId m.startAddr none)
    (hranges : ∀ r, r ∈ s'.methodRangeSet.ranges ↔ r ∈ s.methodRangeSet.ranges ∧
      r.start ≠ m.startAddr) (r : Range Nat Nat) :
    r ∈ s'.methodRangeSet.ranges ↔
      ∃ m, Stored s' r.data m ∧ r.start = m.startAddr ∧ r.stop = m.endAddr := by
  have hmem : (⟨m.startAddr, m.endAddr, p⟩ : Range Nat Nat) ∈ s.methodRangeSet.ranges :=
    (h.ranges _).mpr ⟨m, hm, rfl, rfl⟩
  rw [hranges, h.ranges]
  unfold Stored
  simp only [hs.entry, hs.methods_eq]
  constructor
  · intro hold
    obtain ⟨⟨m', ⟨hm', he⟩, hr⟩, hne⟩ := hold
    refine ⟨m', ⟨hm', ?_⟩, hr⟩
    rw [if_neg fun heq => hne (hr.1.trans heq.2)]
    exact he
  · intro hold
    obtain ⟨m', ⟨hm', he⟩, hr⟩ := hold
    split at he
    · cases he
    · rename_i hother
      refine ⟨⟨m', ⟨hm', he⟩, hr⟩, fun hstart => hother ?_⟩
      -- two stored methods at one address would be one range
      have hmem' : r ∈ s.methodRangeSet.ranges := (h.ranges r).mpr ⟨m', ⟨hm', he⟩, hr⟩
      have hsame := RangeSet.start_inj hmem' hmem hstart
      rw [hsame, hm.1] at hm'
      cases hm'
      exact ⟨rfl, rfl⟩

/-- Removing a stored method succeeds, and takes it from both indexes. -/
theorem agree_removeMethod {s : CodeCacheManager} {id addr : Nat} (h : Agree s)
    (hc : Contract s (.removeMethod id addr)) : ∃ s', s.removeMethod id addr = .ok s' ∧ Agree s' := by
  obtain ⟨group, hgroup, haddr⟩ := hc
  obtain ⟨p, hp⟩ := Option.isSome_iff_exists.mp (AList.lookup_isSome.mpr haddr)
  have hentry : s.entry id addr = some p := by simp [entry, hgroup, hp]
  obtain ⟨m, hm, rfl, rfl⟩ := h.entry id addr p hentry
  have hmem : (⟨m.startAddr, m.endAddr, p⟩ : Range Nat Nat) ∈ s.methodRangeSet.ranges :=
    (h.ranges _).mpr ⟨m, ⟨hm, hentry⟩, rfl, rfl⟩
  obtain ⟨rs', hrem, hranges⟩ := RangeSet.remove_of_mem h.disjoint hmem
  have hstep : s.removeMethod m.methodId m.startAddr = .ok { s with
      methodIdMap := s.methodIdMap.insert m.methodId { group with
        addressMethodMap := group.addressMethodMap.erase m.startAddr }
      methodRangeSet := rs'
      deleted := [p] ++ s.deleted } := by
    unfold removeMethod
    simp only [hgroup, removeMethodByAddr, hp, hrem]
    rfl
  refine ⟨_, hstep, ?_⟩
  have hs : EntryChanged s { s with
      methodIdMap := s.methodIdMap.insert m.methodId { group with
        addressMethodMap := group.addressMethodMap.erase m.startAddr }
      methodRangeSet := rs'
      deleted := [p] ++ s.deleted } m.methodId m.startAddr none := by
    refine ⟨rfl, fun q hq => hq, group, _, hgroup, rfl, fun addr' => ?_⟩
    by_cases haddr : addr' = m.startAddr
    · rw [haddr, AList.lookup_erase, if_pos rfl]
    · rw [AList.lookup_erase_ne haddr, if_neg haddr]
  refine hs.agree h (fun q hq => by cases hq) (hs.ranges_remove h ⟨hm, hentry⟩ hranges) ?_
  intro r hr r' hr' hlt
  exact h.disjoint r ((hranges r).mp hr).1 r' ((hranges r').mp hr').1 hlt

/-! ### Runs

The step lemma puts the three sections together; the run lemma is its induction. -/

/-- Under the contract every critical section succeeds and keeps the indexes in
agreement. -/
theorem agree_step {s : CodeCacheManager} (h : Agree s) {e : Event} (hc : Contract s e) :
    ∃ s', s.step e = .ok s' ∧ Agree s' := by
  cases e with
  | beginAdd id codeSize codeAddr => exact ⟨_, rfl, agree_beginAdd h hc⟩
  | finishAdd p => exact agree_finishAdd h hc
  | removeMethod id addr => exact agree_removeMethod h hc

/-- **The indexes agree in every run under the contract.** -/
theorem Reachable.agree {s : CodeCacheManager} (hs : Reachable s) : Agree s := by
  induction hs with
  | new => exact agree_new
  | step _ hc hstep ih =>
      obtain ⟨s'', hstep', h⟩ := agree_step ih hc
      rw [hstep] at hstep'
      cases hstep'
      exact h

/-! ### Lookups by address

`getMethod` asks the range set, and a range is a stored method. -/

section Lookup

variable {s : CodeCacheManager}

/-- A lookup by address finds the method stored around it. -/
theorem getMethod_iff (h : Agree s) {a p : Nat} :
    s.getMethod a = some p ↔ ∃ m, Stored s p m ∧ m.startAddr ≤ a ∧ a ≤ m.endAddr := by
  unfold getMethod RangeSet.getData
  rw [Option.map_eq_some_iff]
  constructor
  · intro hfound
    obtain ⟨r, hr, rfl⟩ := hfound
    obtain ⟨hmem, hstart, hstop⟩ := (RangeSet.getRange_eq_some h.disjoint).mp hr
    obtain ⟨m, hm, hs, he⟩ := (h.ranges r).mp hmem
    exact ⟨m, hm, hs ▸ hstart, he ▸ hstop⟩
  · intro hcontains
    obtain ⟨m, hm, hstart, hstop⟩ := hcontains
    refine ⟨⟨m.startAddr, m.endAddr, p⟩, ?_, rfl⟩
    refine (RangeSet.getRange_eq_some h.disjoint).mpr ⟨(h.ranges _).mpr ?_, hstart, hstop⟩
    exact ⟨m, hm, rfl, rfl⟩

/-- The pair that is set belongs to the method at the address. -/
theorem findMethodByAddr_iff (h : Agree s) {a id v : Nat} :
    s.findMethodByAddr a = some (id, v) ↔ ∃ p m, Stored s p m ∧
      (m.startAddr ≤ a ∧ a ≤ m.endAddr) ∧ m.methodId = id ∧ m.version = v := by
  have hget : s.findMethodByAddr a = (s.getMethod a).bind fun p =>
      s.methods[p]?.map fun m => (m.methodId, m.version) := rfl
  rw [hget, Option.bind_eq_some_iff]
  constructor
  · intro hfound
    obtain ⟨p, hp, hmap⟩ := hfound
    obtain ⟨m, hm, ha⟩ := (getMethod_iff h).mp hp
    rw [hm.1] at hmap
    obtain ⟨hid, hv⟩ := Prod.mk.inj (Option.some.inj hmap)
    exact ⟨p, m, hm, ha, hid, hv⟩
  · intro hlive
    obtain ⟨p, m, hm, ha, rfl, rfl⟩ := hlive
    exact ⟨p, (getMethod_iff h).mpr ⟨m, hm, ha⟩, by rw [hm.1]; rfl⟩

/-! ### Lookups by id

`getMethodByVersion(0)` runs over the group's map for the greatest version. The order is the
hash map's; the result does not depend on it, as no two methods of an id have the same version. -/

/-- Of the methods of one id, the call that began later has the greater version. -/
theorem Agree.version_lt (h : Agree s) {p q : Nat} {m m' : CompiledMethod}
    (hp : s.methods[p]? = some m) (hq : s.methods[q]? = some m') (hid : m.methodId = m'.methodId)
    (hlt : p < q) : m.version < m'.version := by
  obtain ⟨hqlen, hget⟩ := List.getElem?_eq_some_iff.mp hq
  have hsplit : s.methods.take (q + 1) = s.methods.take q ++ [m'] := by
    rw [List.take_succ_eq_append_getElem hqlen, hget]
  have hmono : adds (s.methods.take (p + 1)) m.methodId ≤ adds (s.methods.take q) m.methodId :=
    (List.take_sublist_take_left (by omega)).countP_le
  rw [h.version p m hp, h.version q m' hq, hsplit, adds_append_singleton, if_pos rfl, ← hid]
  omega

/-- The loop of `getMethodByVersion(0)`: one of the methods seen, with the greatest version.
The induction is on the methods that are still to come. -/
theorem getMethodByVersion_loop (L : List Nat) (r : Nat) :
    ∃ r', L.foldl (fun ret m =>
        match ret with
        | none => some m
        | some r => if s.versionOf r < s.versionOf m then some m else some r) (some r) =
          some r' ∧ r' ∈ r :: L ∧ ∀ q ∈ r :: L, s.versionOf q ≤ s.versionOf r' := by
  induction L generalizing r with
  | nil => exact ⟨r, rfl, List.mem_cons_self, by simp⟩
  | cons p L ih =>
      rw [List.foldl_cons]
      simp only []
      by_cases hlt : s.versionOf r < s.versionOf p
      · obtain ⟨r', hr', hmem, hall⟩ := ih p
        rw [if_pos hlt]
        refine ⟨r', hr', List.mem_cons_of_mem _ hmem, ?_⟩
        exact List.forall_mem_cons.mpr ⟨hlt.le.trans (hall p List.mem_cons_self), hall⟩
      · obtain ⟨r', hr', hmem, hall⟩ := ih r
        obtain ⟨hr, hL⟩ := List.forall_mem_cons.mp hall
        rw [if_neg hlt]
        refine ⟨r', hr', ?_, List.forall_mem_cons.mpr ⟨hr, ?_⟩⟩
        · rcases List.mem_cons.mp hmem with rfl | hmem
          · exact List.mem_cons_self
          · exact List.mem_cons_of_mem _ (List.mem_cons_of_mem _ hmem)
        · exact List.forall_mem_cons.mpr ⟨(not_lt.mp hlt).trans hr, hL⟩

/-- The loop has no result exactly for an empty group. -/
theorem getMethodByVersion_zero (L : List Nat) :
    (L = [] ∧ s.getMethodByVersion 0 L = none) ∨
      ∃ r, s.getMethodByVersion 0 L = some r ∧ r ∈ L ∧ ∀ q ∈ L, s.versionOf q ≤ s.versionOf r := by
  cases L with
  | nil => exact .inl ⟨rfl, rfl⟩
  | cons p L => exact .inr (getMethodByVersion_loop L p)

/-- The method that is stored for an id and whose `addMethod` began last. -/
def Latest (s : CodeCacheManager) (id p : Nat) : Prop :=
  (∃ m, Stored s p m ∧ m.methodId = id) ∧ ∀ q m, Stored s q m → m.methodId = id → q ≤ p

/-- The values of a group's map are the methods stored for its id. -/
theorem Agree.mem_values (h : Agree s) {id : Nat} {group : CompiledMethodGroup}
    (hgroup : s.methodIdMap.lookup id = some group) (order : IterationOrder) {p : Nat} :
    p ∈ order.values group.addressMethodMap ↔ ∃ m, Stored s p m ∧ m.methodId = id := by
  rw [(order.perm _).mem_iff, List.mem_map]
  constructor
  · intro hentry
    obtain ⟨e, he, rfl⟩ := hentry
    have hentry : s.entry id e.1 = some e.2 := by
      simp only [CodeCacheManager.entry, hgroup, Option.bind_some]
      exact AList.mem_lookup_iff.mpr he
    obtain ⟨m, hm, rfl, haddr⟩ := h.entry _ _ _ hentry
    exact ⟨m, ⟨hm, haddr.symm ▸ hentry⟩, rfl⟩
  · intro hstored
    obtain ⟨m, ⟨hm, hentry⟩, rfl⟩ := hstored
    simp only [CodeCacheManager.entry, hgroup, Option.bind_some] at hentry
    exact ⟨⟨m.startAddr, p⟩, AList.mem_lookup_iff.mp hentry, rfl⟩

theorem Stored.versionOf {p : Nat} {m : CompiledMethod} (h : Stored s p m) :
    s.versionOf p = m.version := by
  simp [CodeCacheManager.versionOf, h.1]

/-- Either no method of the id is stored, or the lookup finds the latest one. -/
theorem getMethodById_cases (h : Agree s) (order : IterationOrder) (id : Nat) :
    ((∀ p m, Stored s p m → m.methodId ≠ id) ∧ s.getMethodById order id = none) ∨
      ∃ p, s.getMethodById order id = some p ∧ Latest s id p := by
  unfold getMethodById
  cases hgroup : s.methodIdMap.lookup id with
  | none =>
      refine .inl ⟨fun p m hm hid => ?_, rfl⟩
      have hentry := hm.2
      rw [hid, CodeCacheManager.entry, hgroup] at hentry
      cases hentry
  | some group =>
      have hvalues := fun p => h.mem_values hgroup order (p := p)
      rw [Option.bind_some]
      rcases getMethodByVersion_zero (s := s) (order.values group.addressMethodMap) with
        ⟨hnil, hnone⟩ | ⟨r, hr, hmem, hmax⟩
      · refine .inl ⟨fun p m hm hid => ?_, hnone⟩
        have hp := (hvalues p).mpr ⟨m, hm, hid⟩
        rw [hnil] at hp
        cases hp
      · refine .inr ⟨r, hr, (hvalues r).mp hmem, fun q m' hq hid => ?_⟩
        obtain ⟨m, hm, hid'⟩ := (hvalues r).mp hmem
        by_contra hlt
        have hle := hmax q ((hvalues q).mpr ⟨m', hq, hid⟩)
        rw [hq.versionOf, hm.versionOf] at hle
        have hversion := h.version_lt hm.1 hq.1 (hid'.trans hid.symm) (not_le.mp hlt)
        omega

/-- There is one latest method. -/
theorem Latest.unique {id p q : Nat} (hp : Latest s id p) (hq : Latest s id q) : p = q := by
  obtain ⟨⟨m, hm, hid⟩, hmax⟩ := hp
  obtain ⟨⟨m', hm', hid'⟩, hmax'⟩ := hq
  exact le_antisymm (hmax' p m hm hid) (hmax q m' hm' hid')

/-- A lookup by id finds the method whose call began last. -/
theorem getMethodById_iff (h : Agree s) (order : IterationOrder) {id p : Nat} :
    s.getMethodById order id = some p ↔ Latest s id p := by
  rcases getMethodById_cases h order id with ⟨hno, hnone⟩ | ⟨r, hr, hlatest⟩
  · rw [hnone]
    constructor
    · intro hp
      cases hp
    · intro hstored
      obtain ⟨⟨m, hm, hid⟩, -⟩ := hstored
      exact absurd hid (hno p m hm)
  · rw [hr, Option.some.injEq]
    constructor
    · intro heq
      subst heq
      exact hlatest
    · exact hlatest.unique

/-- It finds none exactly if none is stored. -/
theorem getMethodById_eq_none_iff (h : Agree s) (order : IterationOrder) {id : Nat} :
    s.getMethodById order id = none ↔ ∀ p m, Stored s p m → m.methodId ≠ id := by
  rcases getMethodById_cases h order id with ⟨hno, hnone⟩ | ⟨r, hr, ⟨m, hm, hid⟩, -⟩
  · exact ⟨fun _ => hno, fun _ => hnone⟩
  · rw [hr]
    constructor
    · intro hp
      cases hp
    · intro hno
      exact absurd hid (hno r m hm)

end Lookup

/-- **The indexes agree.** In every state reached under the contract, by any interleaving of
additions and removals: no assertion fails in the next critical section, a lookup by address
finds the method stored there, and a lookup by id the one whose `addMethod` began last. -/
theorem indexes_agree {s : CodeCacheManager} (hs : Reachable s) :
    (∀ e, Contract s e → ∃ s', s.step e = .ok s') ∧
    (∀ a p, s.getMethod a = some p ↔ ∃ m, Stored s p m ∧ m.startAddr ≤ a ∧ a ≤ m.endAddr) ∧
    (∀ a id v, s.findMethodByAddr a = some (id, v) ↔ ∃ p m, Stored s p m ∧
      (m.startAddr ≤ a ∧ a ≤ m.endAddr) ∧ m.methodId = id ∧ m.version = v) ∧
    (∀ order id p, s.getMethodById order id = some p ↔ Latest s id p) ∧
    (∀ order id, s.getMethodById order id = none ↔ ∀ p m, Stored s p m → m.methodId ≠ id) := by
  have h := hs.agree
  refine ⟨fun e hc => ?_, fun a p => getMethod_iff h, fun a id v => findMethodByAddr_iff h,
    fun order id p => getMethodById_iff h order, fun order id => getMethodById_eq_none_iff h order⟩
  obtain ⟨s', hstep, -⟩ := agree_step h hc
  exact ⟨s', hstep⟩

/-- One method loaded at 4096. -/
theorem indexes_agree_one_method :
    ∃ s, Reachable s ∧ s.getMethod 4100 = some 0 ∧ s.findMethodByAddr 4100 = some (7, 1) := by
  have hbegin : Contract new (.beginAdd 7 16 4096) := ⟨by decide, by decide, by decide⟩
  have hs₁ : Reachable (new.beginAdd 7 16 4096) := .step .new hbegin rfl
  have hfinish : Contract (new.beginAdd 7 16 4096) (.finishAdd 0) :=
    ⟨List.mem_cons_self, fun m _ r hr => by cases hr⟩
  obtain ⟨s, hstep⟩ := (indexes_agree hs₁).1 _ hfinish
  have hs : Reachable s := .step hs₁ hfinish hstep
  have hstored : Stored s 0 ⟨7, 1, 16, 4096⟩ := by
    cases hstep
    exact ⟨rfl, rfl⟩
  refine ⟨s, hs, ((indexes_agree hs).2.1 4100 0).mpr ⟨_, hstored, by decide⟩, ?_⟩
  exact ((indexes_agree hs).2.2.1 4100 7 1).mpr ⟨0, _, hstored, by decide, rfl, rfl⟩

end CodeCacheManager

end DroidPerf
