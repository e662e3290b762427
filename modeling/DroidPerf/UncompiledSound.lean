import DroidPerf.Lib.Run
import DroidPerf.CodeCacheLifetimeSound

/-!
# DroidPerf.UncompiledSound

The cache of uncompiled methods and the code cache.

A method is registered as compiled by `addMethod` or by `addMethodAndRemoveFromUncompiledSet`.
Only the second takes the method out of the cache of uncompiled methods, so a method is in both
exactly when `addMethod` is called for one that is in the cache (`alwaysExclusive_iff`).

`step_ids` and `step_uncompiled` say what one call does to each of the two sets of ids, and
nothing after them looks into a call. With them a single call keeps the sets apart exactly when
it is not an `addMethod` for an uncompiled method (`Exclusive.step_iff`). For runs the state is
taken together with the calls so far, and as long as no such `addMethod` came, the two sets are
what the calls say (`History.Exact`): this is the invariant from which the text that is dumped
at the death of the VM follows.
-/

namespace DroidPerf

open Run

namespace MethodCaches

/-! ### Runs with their history

What ought to be in the two sets is said in terms of the calls made so far, so a run carries
these along. -/

/-- The method that a call registers as compiled. -/
def Event.registers : Event → Option Nat
  | .codeCache (.beginAdd methodId _ _) => some methodId
  | .addMethodAndRemoveFromUncompiledSet methodId => some methodId
  | _ => none

/-- The method that a call asks to be kept as uncompiled. -/
def Event.passes : Event → Option Nat
  | .checkAndMoveMethodToUncompiledSet methodId => some methodId
  | _ => none

/-- The calls made so far, and the caches after them. -/
abbrev History : Type := List Event × MethodCaches

/-- One more call. -/
def History.Next (q : History) (e : Event) (q' : History) : Prop :=
  q.2.step e = .ok q'.2 ∧ q'.1 = q.1 ++ [e]

/-- No method is in the cache of uncompiled methods and in the code cache. -/
def Exclusive (s : MethodCaches) : Prop :=
  ∀ id ∈ s.uncompiledMethodCache.methodSet.elems, id ∉ s.codeCacheManager.methodIdMap

/-- Some call has registered the method. -/
def History.Registered (q : History) (id : Nat) : Prop := ∃ e ∈ q.1, e.registers = some id

/-- Some call has passed the method to `checkAndMoveMethodToUncompiledSet`. -/
def History.Passed (q : History) (id : Nat) : Prop := ∃ e ∈ q.1, e.passes = some id

/-- What would be dumped at the death of the VM: the methods that were passed and never
registered, each once. A null id is no method. -/
def History.DumpsUncompiled (q : History) : Prop :=
  ∀ traversal, (q.2.dumpAtVMDeath traversal).Nodup ∧
    ∀ id, id ∈ q.2.dumpAtVMDeath traversal ↔ id ≠ 0 ∧ q.Passed id ∧ ¬ q.Registered id

/-- A call of `addMethod` is for a method outside the cache of uncompiled methods. -/
def Event.AddsUnseen (s : MethodCaches) : Event → Prop
  | .codeCache (.beginAdd methodId _ _) => methodId ∉ s.uncompiledMethodCache.methodSet.elems
  | _ => True

/-! ### What a call does to the two sets

Membership after a call, in terms of membership before it and of the call's own id. -/

/-- The dump is the traversal of the cache without the null id. -/
theorem dumpAtVMDeath_eq (traversal : ListSet.Traversal Nat) (s : MethodCaches) :
    s.dumpAtVMDeath traversal =
      (traversal.list s.uncompiledMethodCache.methodSet).filter fun method => method ≠ 0 := by
  suffices h : ∀ (methods dumped : List Nat),
      methods.foldl (fun dumped method => dumpUncompiledMethod method dumped) dumped =
        dumped ++ methods.filter fun method => method ≠ 0 from h _ []
  intro methods
  induction methods with
  | nil => exact fun dumped => (List.append_nil _).symm
  | cons method methods ih =>
      intro dumped
      rw [List.foldl_cons, ih]
      by_cases hzero : method = 0
      · simp [dumpUncompiledMethod, hzero]
      · simp [dumpUncompiledMethod, hzero]

section Calls

variable {s s' : MethodCaches} {e : Event}

/-- Storing a group again under its id adds no id. -/
theorem mem_insert_of_lookup {map : AList fun _ : Nat => CompiledMethodGroup} {id id' : Nat}
    {group group' : CompiledMethodGroup} (h : map.lookup id = some group) :
    id' ∈ map.insert id group' ↔ id' ∈ map := by
  have hmem : id ∈ map := AList.lookup_isSome.mp (by rw [h]; rfl)
  rw [AList.mem_insert]
  constructor
  · intro hcases
    rcases hcases with rfl | hcases
    · exact hmem
    · exact hcases
  · exact .inr

/-- A critical section changes the ids of the code cache only where `addMethod` begins. -/
theorem codeCache_step_ids {m m' : CodeCacheManager} {e : CodeCacheManager.Event}
    (h : m.step e = .ok m') (id : Nat) :
    id ∈ m'.methodIdMap ↔ id ∈ m.methodIdMap ∨ (Event.codeCache e).registers = some id := by
  cases e with
  | beginAdd id' codeSize codeAddr =>
      cases h
      simp only [CodeCacheManager.beginAdd, AList.mem_insert, Event.registers, Option.some.injEq]
      rw [or_comm, eq_comm]
  | finishAdd p =>
      obtain ⟨m₁, -, ⟨-, -, group, map, hgroup, hmap, -⟩, -⟩ :=
        CodeCacheManager.finishAdd_changes h
      rw [hmap, mem_insert_of_lookup hgroup]
      simp [Event.registers]
  | removeMethod id' addr =>
      obtain rfl | ⟨⟨-, -, group, map, hgroup, hmap, -⟩, -⟩ :=
        CodeCacheManager.removeMethod_changes h
      · simp [Event.registers]
      · rw [hmap, mem_insert_of_lookup hgroup]
        simp [Event.registers]

/-- The code cache gains the method that is registered. -/
theorem step_ids (h : s.step e = .ok s') (id : Nat) :
    id ∈ s'.codeCacheManager.methodIdMap ↔
      id ∈ s.codeCacheManager.methodIdMap ∨ e.registers = some id := by
  cases e with
  | codeCache e =>
      obtain ⟨m', hm', rfl⟩ := map_eq_ok.mp h
      exact codeCache_step_ids hm' id
  | addMethodAndRemoveFromUncompiledSet id' =>
      cases h
      simp only [addMethodAndRemoveFromUncompiledSet, AList.mem_insert, Event.registers,
        Option.some.injEq]
      rw [or_comm, eq_comm]
  | checkAndMoveMethodToUncompiledSet id' =>
      cases h
      simp only [checkAndMoveMethodToUncompiledSet, Event.registers, reduceCtorEq, or_false]
      split <;> rfl

/-- The other cache gains the method that is passed, unless it is registered, and loses
the one that `addMethodAndRemoveFromUncompiledSet` registers. -/
theorem step_uncompiled (h : s.step e = .ok s') (id : Nat) :
    id ∈ s'.uncompiledMethodCache.methodSet.elems ↔
      (id ∈ s.uncompiledMethodCache.methodSet.elems ∨
        e.passes = some id ∧ id ∉ s.codeCacheManager.methodIdMap) ∧
      e ≠ .addMethodAndRemoveFromUncompiledSet id := by
  cases e with
  | codeCache e =>
      obtain ⟨m', -, rfl⟩ := map_eq_ok.mp h
      simp [Event.passes]
  | addMethodAndRemoveFromUncompiledSet id' =>
      cases h
      simp only [addMethodAndRemoveFromUncompiledSet, MethodCache.removeMethod, ListSet.mem_erase,
        Event.passes, reduceCtorEq, false_and, or_false, ne_eq,
        Event.addMethodAndRemoveFromUncompiledSet.injEq]
      rw [eq_comm]
  | checkAndMoveMethodToUncompiledSet id' =>
      cases h
      simp only [checkAndMoveMethodToUncompiledSet, Event.passes, Option.some.injEq, ne_eq,
        reduceCtorEq, not_false_eq_true, and_true]
      cases hlook : s.codeCacheManager.methodIdMap.lookup id' with
      | none =>
          have hout : id' ∉ s.codeCacheManager.methodIdMap := AList.lookup_eq_none.mp hlook
          simp only [MethodCache.addMethod, ListSet.mem_insert]
          constructor
          · intro hcases
            rcases hcases with hin | rfl
            · exact .inl hin
            · exact .inr ⟨rfl, hout⟩
          · intro hcases
            rcases hcases with hin | ⟨rfl, -⟩
            · exact .inl hin
            · exact .inr rfl
      | some group =>
          have hin : id' ∈ s.codeCacheManager.methodIdMap :=
            AList.lookup_isSome.mp (by rw [hlook]; rfl)
          constructor
          · exact .inl
          · intro hcases
            rcases hcases with hcases | ⟨rfl, hout⟩
            · exact hcases
            · exact absurd hin hout

/-- A call keeps the caches apart exactly when it is not an `addMethod` for an uncompiled
method. -/
theorem Exclusive.step_iff (hs : s.Exclusive) (h : s.step e = .ok s') :
    s'.Exclusive ↔ e.AddsUnseen s := by
  have hids := step_ids h
  have huncompiled := step_uncompiled h
  constructor
  · -- an `addMethod` for an uncompiled method would put it into both
    intro hs'
    unfold Event.AddsUnseen
    split
    · rename_i id codeSize codeAddr
      intro hmem
      refine hs' id ((huncompiled id).mpr ⟨.inl hmem, nofun⟩) ?_
      exact (hids id).mpr (.inr rfl)
    · trivial
  · -- a method in both afterwards was put there by this call
    intro hunseen id hmem hregistered
    obtain ⟨hbefore, hkept⟩ := (huncompiled id).mp hmem
    rcases (hids id).mp hregistered with hregistered | hregistered
    · rcases hbefore with hbefore | ⟨-, hout⟩
      · exact hs id hbefore hregistered
      · exact hout hregistered
    · -- the call registers the method, and leaves it in the other cache
      cases e with
      | codeCache e =>
          cases e with
          | beginAdd id' codeSize codeAddr =>
              cases hregistered
              rcases hbefore with hbefore | ⟨hpasses, -⟩
              · exact hunseen hbefore
              · cases hpasses
          | finishAdd p => cases hregistered
          | removeMethod id' addr => cases hregistered
      | addMethodAndRemoveFromUncompiledSet id' =>
          cases hregistered
          exact hkept rfl
      | checkAndMoveMethodToUncompiledSet id' => cases hregistered

end Calls

/-! ### Whole runs

The history grows by a call at its end, and the invariant says of both sets that they hold what
the history says. -/

/-- The caches hold what the history says. -/
structure History.Exact (q : History) : Prop where
  registered : ∀ id, id ∈ q.2.codeCacheManager.methodIdMap ↔ q.Registered id
  uncompiled : ∀ id, id ∈ q.2.uncompiledMethodCache.methodSet.elems ↔
    q.Passed id ∧ ¬ q.Registered id

/-- Some call of a longer history does something if an earlier one or the last one does. -/
theorem exists_mem_append_singleton {f : Event → Option Nat} {history : List Event} {e : Event}
    {id : Nat} : (∃ e' ∈ history ++ [e], f e' = some id) ↔
      (∃ e' ∈ history, f e' = some id) ∨ f e = some id := by
  simp [or_and_right, exists_or]

/-- Before the first call no method is known. -/
theorem History.exact_new : History.Exact ([], new) where
  registered id := by simp [new, CodeCacheManager.new, Registered]
  uncompiled id := by simp [new, ListSet.empty, Passed]

/-- A method is never both registered and not registered. -/
theorem History.Exact.exclusive {q : History} (hq : q.Exact) : q.2.Exclusive := by
  intro id hmem hregistered
  exact ((hq.uncompiled id).mp hmem).2 ((hq.registered id).mp hregistered)

/-- One call keeps the sets exact, if it is not an `addMethod` for an uncompiled method. That
the sets stay apart is what makes the second equivalence go through. -/
theorem History.Exact.next {q q' : History} {e : Event} (hq : q.Exact) (hunseen : e.AddsUnseen q.2)
    (h : q.Next e q') : q'.Exact := by
  obtain ⟨hstep, hhistory⟩ := h
  have hregistered : ∀ id, q'.Registered id ↔ q.Registered id ∨ e.registers = some id := by
    intro id
    unfold Registered
    rw [hhistory]
    exact exists_mem_append_singleton
  have hpassed : ∀ id, q'.Passed id ↔ q.Passed id ∨ e.passes = some id := by
    intro id
    unfold Passed
    rw [hhistory]
    exact exists_mem_append_singleton
  have hids : ∀ id, id ∈ q'.2.codeCacheManager.methodIdMap ↔ q'.Registered id := by
    intro id
    rw [step_ids hstep, hregistered, hq.registered]
  have hexclusive := (hq.exclusive.step_iff hstep).mpr hunseen
  refine ⟨hids, fun id => ?_⟩
  constructor
  · -- in the cache now: it was passed, and since the sets are apart it is not registered
    intro hmem
    have hout := hexclusive id hmem
    rw [hids] at hout
    refine ⟨(hpassed id).mpr ?_, hout⟩
    rcases ((step_uncompiled hstep id).mp hmem).1 with hmem | ⟨hmem, -⟩
    · exact .inl ((hq.uncompiled id).mp hmem).1
    · exact .inr hmem
  · -- passed and not registered: it was so before, or this call passed it
    intro hcases
    obtain ⟨hpass, hout⟩ := hcases
    rw [hregistered, not_or] at hout
    refine (step_uncompiled hstep id).mpr ⟨?_, ?_⟩
    · rcases (hpassed id).mp hpass with hpass | hpass
      · exact .inl ((hq.uncompiled id).mpr ⟨hpass, hout.1⟩)
      · exact .inr ⟨hpass, fun hin => hout.1 ((hq.registered id).mp hin)⟩
    · intro heq
      exact hout.2 (by rw [heq]; rfl)

theorem History.Exact.dumpsUncompiled {q : History} (hq : q.Exact) : q.DumpsUncompiled := by
  intro traversal
  have hperm := traversal.perm q.2.uncompiledMethodCache.methodSet
  rw [dumpAtVMDeath_eq]
  refine ⟨(hperm.nodup_iff.mpr q.2.uncompiledMethodCache.methodSet.nodup).filter _, fun id => ?_⟩
  rw [List.mem_filter, hperm.mem_iff, hq.uncompiled, decide_eq_true_iff]
  exact and_comm

/-- **Compiled or uncompiled.** Over every run the two caches are disjoint, and the methods
dumped at the death of the VM are those that were passed to `checkAndMoveMethodToUncompiledSet`
and never registered, exactly when `addMethod` is never called for a method in the cache of
uncompiled methods. -/
theorem alwaysExclusive_iff (events : List Event) :
    Always History.Next (fun q => q.2.Exclusive ∧ q.DumpsUncompiled) ([], new) events ↔
      AlwaysBefore History.Next (fun q e => e.AddsUnseen q.2) ([], new) events := by
  constructor
  · intro h
    refine (always_iff_alwaysBefore (P := fun q : History => q.2.Exclusive) ?_ ?_).mp
      (h.imp fun q hq => hq.1)
    · intro q e q' hq hnext
      exact hq.step_iff hnext.1
    · exact History.exact_new.exclusive
  · intro h
    have hexact := always_of_alwaysBefore (I := History.Exact)
      (fun q e q' hq hunseen hnext => hq.next hunseen hnext) History.exact_new h
    exact hexact.imp fun q hq => ⟨hq.exclusive, hq.dumpsUncompiled⟩

/-- A method is seen, and compiled later: it is in both caches, and would be dumped. -/
theorem addMethod_keeps_uncompiled :
    ¬ Always History.Next (fun q => q.2.Exclusive ∧ q.DumpsUncompiled) ([], new)
      [.checkAndMoveMethodToUncompiledSet 7, .codeCache (.beginAdd 7 16 4096)] := by
  intro h
  have hseen := h.2 (_, new.checkAndMoveMethodToUncompiledSet 7) ⟨rfl, rfl⟩
  have hboth := (hseen.2 (_, _) ⟨rfl, rfl⟩).1
  exact hboth 7 (by decide) (by decide)

end MethodCaches

end DroidPerf
