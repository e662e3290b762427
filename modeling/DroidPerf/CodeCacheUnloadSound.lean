import DroidPerf.CodeCacheLifetimeSound

/-!
# DroidPerf.CodeCacheUnloadSound

Unload events for code that the cache does not hold.

`removeMethod` looks for the address in the group of the method, but removes the range at the
address whether or not the group had it, and asserts that there was one. So an event for code
that is not stored is harmless only when the method has no group at all (`tolerates_iff`).

One direction is the early return of `removeMethod`. For the other, the range set after a
removal that goes through is another one (`RangeSet.remove_ne`), and if the removal does not go
through, the assertion fails: there is no third way for a method with a group.
-/

namespace DroidPerf

/-- A removal by start that succeeds changes the set: the range was in it and is not any more. -/
theorem RangeSet.remove_ne {K D : Type} [LinearOrder K] {rs rs' : RangeSet K D} {start : K}
    (h : rs.remove start = (true, rs')) : rs' ≠ rs := by
  intro hsame
  subst hsame
  have hkept : ∀ r ∈ rs'.ranges, r.start ≠ start := fun r hr => (mem_ranges_of_remove h hr).2
  unfold RangeSet.remove at h
  split at h
  · cases h
  · rename_i r hget
    rw [if_neg (hkept r (mem_of_getRange hget).1)] at h
    cases h

namespace CodeCacheManager

/-- Both indexes, and so the answers of all lookups, are the same. The order in which a group
is iterated is that of the hash map, so the look-up by id is compared for each such order. -/
structure SameIndexes (s s' : CodeCacheManager) : Prop where
  methodIdMap : s'.methodIdMap = s.methodIdMap
  methodRangeSet : s'.methodRangeSet = s.methodRangeSet
  getMethod : ∀ addr, s'.getMethod addr = s.getMethod addr
  findMethodByAddr : ∀ addr, s'.findMethodByAddr addr = s.findMethodByAddr addr
  getMethodById : ∀ order id, s'.getMethodById order id = s.getMethodById order id

theorem SameIndexes.refl (s : CodeCacheManager) : SameIndexes s s :=
  ⟨rfl, rfl, fun _ => rfl, fun _ => rfl, fun _ _ => rfl⟩

/-- `removeMethod` completes and changes nothing that a lookup sees. -/
def Tolerates (s : CodeCacheManager) (methodId codeAddr : Nat) : Prop :=
  ∃ s', s.removeMethod methodId codeAddr = .ok s' ∧ SameIndexes s s'

section Unload

variable {s : CodeCacheManager} {id addr : Nat}

/-- A method without a group is not looked for any further. -/
theorem tolerates_of_unknown (h : s.methodIdMap.lookup id = none) : s.Tolerates id addr := by
  refine ⟨s, ?_, .refl s⟩
  rw [removeMethod, h]

/-- A method with a group does not tolerate an unload event: the range at the address, of
whichever method it is, is taken out, or the assertion fails. -/
theorem not_tolerates_of_group {group : CompiledMethodGroup}
    (h : s.methodIdMap.lookup id = some group) : ¬ s.Tolerates id addr := by
  rintro ⟨s', hremove, hsame⟩
  unfold removeMethod at hremove
  simp only [h] at hremove
  obtain ⟨_, hremoved, hremove⟩ := bind_eq_ok.mp hremove
  cases hremove
  have hset : s.methodRangeSet.remove addr = (true, (s.methodRangeSet.remove addr).2) := by
    rw [← assert_eq_ok.mp hremoved]
  exact RangeSet.remove_ne hset hsame.methodRangeSet

end Unload

/-- **Unload events.** Whatever the indexes hold, an unload event leaves them as they are
exactly when its method has no group. In particular an event for code that is not stored does
harm as soon as the method was ever added, be it at another address. -/
theorem tolerates_iff (s : CodeCacheManager) (id addr : Nat) :
    s.Tolerates id addr ↔ s.methodIdMap.lookup id = none := by
  constructor
  · intro htolerates
    cases hlook : s.methodIdMap.lookup id with
    | none => rfl
    | some group => exact absurd htolerates (not_tolerates_of_group hlook)
  · exact tolerates_of_unknown

/-- Unloading method 7 at an address that belongs to method 8 takes method 8 out of the
range set. -/
theorem tolerates_fails_other_method :
    ∃ s s', Interleaved s ∧ s.entry 7 8192 = none ∧ s.removeMethod 7 8192 = .ok s' ∧
      s.getMethod 8200 = some 1 ∧ s'.getMethod 8200 = none ∧ ¬ s.Tolerates 7 8192 := by
  have hs₁ : Interleaved (new.beginAdd 7 16 4096) :=
    .step (e := .beginAdd 7 16 4096) .new (show 1 ≤ 16 by decide) rfl
  have hs₂ : Interleaved ((new.beginAdd 7 16 4096).beginAdd 8 16 8192) :=
    .step (e := .beginAdd 8 16 8192) hs₁ (show 1 ≤ 16 by decide) rfl
  have hs₃ := Interleaved.step (e := .finishAdd 0) hs₂ (show 0 ∈ [1, 0] by decide) rfl
  have hs := Interleaved.step (e := .finishAdd 1) hs₃ (show 1 ∈ [1] by decide) rfl
  exact ⟨_, _, hs, rfl, rfl, rfl, rfl, not_tolerates_of_group rfl⟩

end CodeCacheManager

end DroidPerf
