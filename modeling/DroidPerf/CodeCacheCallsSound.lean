import DroidPerf.CodeCacheCalls
import DroidPerf.UncompiledSound

/-!
# DroidPerf.CodeCacheCallsSound

The calls of the code cache, statement by statement and in any order, do what they do in whole
sections (`calls_refine_sections`). From this follow that no index ever holds a deleted method
(`calls_never_dangle`) and that the lock does what it is there for (`calls_lock`).

The proof has three levels.

* One section. `Prog.finish` runs the statements of a section to the `unlock` that ends it.
  There is a `finish_…` lemma for each body of `code_cache.cpp`, which says that the statements
  leave the caches that the section as a step (`CodeCacheManager.beginAdd` and so on) leaves,
  or that both fail. The statements write a group back where the step leaves it alone, so the
  two states are equal up to the order inside `_method_id_map`: this is `Same`, and
  `Same.step_ok` carries it through a step. `Caller.agrees` collects the bodies.
* A run of sections. `Follows` ties the threads of the spin lock's system, taken section by
  section, to a run of `CallState`; `Follows.step` is one section and `Follows.run` the
  induction. The invariant of these runs is `Valid`: the code cache is alive, and the object
  that a call of `addMethod` has begun is pending and belongs to this call alone. Without it
  the second section of `addMethod` could find its object changed.
* A run of statements. The spin lock's `run_settles` reduces the interleaving of statements to
  the sections in the order in which the lock was taken, which is all that this library needs
  to know of the calls: they keep the discipline of the lock (`keeps_makeCalls`).
-/

namespace DroidPerf

open SpinLock

namespace MethodCaches

/-! ### Equal caches

A statement that looks a group up stores it again under the same id. This changes no look-up
but may move the entry, so the caches are compared by what they answer. -/

/-- The caches are the same, whatever the order of the entries of `_method_id_map`. -/
structure Same (s s' : MethodCaches) : Prop where
  lookup : ∀ id, s.codeCacheManager.methodIdMap.lookup id = s'.codeCacheManager.methodIdMap.lookup id
  ranges : s.codeCacheManager.methodRangeSet = s'.codeCacheManager.methodRangeSet
  methods : s.codeCacheManager.methods = s'.codeCacheManager.methods
  pending : s.codeCacheManager.pending = s'.codeCacheManager.pending
  deleted : s.codeCacheManager.deleted = s'.codeCacheManager.deleted
  uncompiled : s.uncompiledMethodCache = s'.uncompiledMethodCache

/-- Caches are the same as themselves. -/
theorem Same.refl (s : MethodCaches) : Same s s := ⟨fun _ => rfl, rfl, rfl, rfl, rfl, rfl⟩

/-- The same group stored in two maps that answer alike leaves them answering alike. -/
theorem lookup_insert_congr {m m' : AList fun _ : Nat => CompiledMethodGroup}
    (h : ∀ id, m.lookup id = m'.lookup id) (methodId : Nat) (group : CompiledMethodGroup)
    (id : Nat) : (m.insert methodId group).lookup id = (m'.insert methodId group).lookup id := by
  by_cases hid : id = methodId
  · rw [hid, AList.lookup_insert, AList.lookup_insert]
  · rw [AList.lookup_insert_ne hid, AList.lookup_insert_ne hid, h]

/-- A group stored where it is already changes no answer. -/
theorem lookup_insert_self {m : AList fun _ : Nat => CompiledMethodGroup} {methodId : Nat}
    {group : CompiledMethodGroup} (h : m.lookup methodId = some group) (id : Nat) :
    (m.insert methodId group).lookup id = m.lookup id := by
  by_cases hid : id = methodId
  · rw [hid, AList.lookup_insert, h]
  · rw [AList.lookup_insert_ne hid]

/-- The same group stored in the same caches leaves them the same. -/
theorem Same.setGroup {s s' : MethodCaches} (h : Same s s') (methodId : Nat)
    (group : CompiledMethodGroup) : Same (s.setGroup methodId group) (s'.setGroup methodId group) :=
  ⟨lookup_insert_congr h.lookup methodId group, h.ranges, h.methods, h.pending, h.deleted,
    h.uncompiled⟩

/-! ### A thread between two sections

`addMethod` is the only call with two sections; between them the thread has an object that is
in no index yet. What a thread has still to run depends on this object and on the calls that
are left. The lemmas below run a body up to its `unlock`; `k` is what comes after it. -/

/-- A thread with calls left takes the lock, runs the body of the first call and unlocks. -/
theorem makeCalls_cons (call : Call) (calls : List Call) (answers : List Answer) :
    makeCalls (call :: calls) answers =
      .lock (call.body >>= fun answer => .unlock (makeCalls calls (answers ++ [answer]))) := by
  rw [makeCalls, Prog.withLock, Prog.lock_bind, Prog.bind_assoc]
  rfl

/-- What a thread has still to run. -/
def Caller.prog (t : Caller) : Prog MethodCaches (List Answer) :=
  match t.adding, t.calls with
  | some newMethod, .addMethod methodId codeSize codeAddr :: calls =>
    .lock (addMethodRest methodId codeSize codeAddr newMethod >>= fun answer =>
      .unlock (makeCalls calls (t.answers ++ [answer])))
  | _, _ => makeCalls t.calls t.answers

/-- The object of a call of `addMethod` is the one it was begun with. -/
def Caller.Adds (s : MethodCaches) (t : Caller) : Prop :=
  ∀ newMethod, t.adding = some newMethod → newMethod ∈ s.codeCacheManager.pending ∧
    ∃ methodId codeSize codeAddr calls version,
      t.calls = .addMethod methodId codeSize codeAddr :: calls ∧
      s.codeCacheManager.methods[newMethod]? = some ⟨methodId, version, codeSize, codeAddr⟩

section Finish

variable {α : Type} {s s' : MethodCaches} {methodId codeSize codeAddr : Nat}

/-- The search for a group makes a new one if there is none. -/
theorem finish_findGroup (methodId : Nat) (k : Unit → Prog MethodCaches α) (s : MethodCaches) :
    (findGroup methodId >>= k).finish s =
      (k ()).finish (match s.codeCacheManager.methodIdMap.lookup methodId with
        | none => s.setGroup methodId ⟨methodId, 0, ∅⟩
        | some _ => s) := by
  unfold findGroup
  simp only [Prog.load_bind, Prog.finish]
  cases s.codeCacheManager.methodIdMap.lookup methodId with
  | none => rfl
  | some group => rfl

/-- The first section of `addMethod` is `beginAdd`. The answer that goes on is the new object. -/
theorem finish_beginAdd (methodId codeSize codeAddr : Nat)
    (k : Answer → Prog MethodCaches α) (s : MethodCaches) :
    (addMethodBody methodId codeSize codeAddr >>= k).finish s =
      ({ s with codeCacheManager := s.codeCacheManager.beginAdd methodId codeSize codeAddr },
        .lock (addMethodRest methodId codeSize codeAddr s.codeCacheManager.methods.length >>= k)) := by
  unfold addMethodBody
  simp only [Prog.bind_assoc, finish_findGroup]
  cases h : s.codeCacheManager.methodIdMap.lookup methodId with
  | none =>
      simp [takeVersion, onGroup, Prog.finish, setGroup, startMethod, unsetLock, setLock,
        CodeCacheManager.beginAdd, h]
  | some group =>
      simp [takeVersion, onGroup, Prog.finish, setGroup, startMethod, unsetLock, setLock,
        CodeCacheManager.beginAdd, h]

/-- The second section of `addMethod` is `finishAdd` on the object that the first one made: it
fails where `finishAdd` does, because the group is gone or because the range is not inserted. -/
theorem finish_finishAdd {newMethod version : Nat} (k : Answer → Prog MethodCaches α)
    (h : s.codeCacheManager.methods[newMethod]? = some ⟨methodId, version, codeSize, codeAddr⟩) :
    (∃ manager, s.codeCacheManager.finishAdd newMethod = .ok manager ∧
        (addMethodRest methodId codeSize codeAddr newMethod >>= k).finish s =
          (k (.method (some newMethod))).finish { s with codeCacheManager := manager }) ∨
      (∃ fault, s.codeCacheManager.finishAdd newMethod = .error fault) ∧
        ((addMethodRest methodId codeSize codeAddr newMethod >>= k).finish s).2 = .abort := by
  unfold addMethodRest CodeCacheManager.finishAdd
  cases hgroup : s.codeCacheManager.methodIdMap.lookup methodId with
  | none =>
      -- there is no group of the id, and the section cannot go on
      refine .inr ⟨?_, ?_⟩
      · simp [h, hgroup]
      · simp [fileMethod, onGroup, Prog.finish, hgroup]
  | some group =>
      cases hinsert : s.codeCacheManager.methodRangeSet.insert codeAddr
          (sub64 (add64 codeAddr codeSize) 1) newMethod with
      | error fault =>
          -- the range of the method is empty or runs backwards
          refine .inr ⟨⟨fault, ?_⟩, ?_⟩
          · simp only [h, hgroup, hinsert]
            rfl
          · simp [fileMethod, onGroup, insertRange, Prog.finish, hgroup, setGroup, hinsert]
      | ok result =>
          obtain ⟨inserted, rs⟩ := result
          cases inserted with
          | false =>
              refine .inr ⟨?_, ?_⟩
              · simp [h, hgroup, hinsert, assert]
              · simp [fileMethod, onGroup, insertRange, Prog.finish, hgroup, setGroup, hinsert]
          | true =>
              refine .inl ⟨{ s.codeCacheManager with
                methodIdMap := s.codeCacheManager.methodIdMap.insert methodId { group with
                  addressMethodMap := group.addressMethodMap.insert codeAddr newMethod }
                methodRangeSet := rs
                pending := s.codeCacheManager.pending.erase newMethod }, ?_, ?_⟩
              · simp only [h, hgroup, hinsert]
                rfl
              · simp [fileMethod, onGroup, insertRange, endMethod, Prog.finish, hgroup, setGroup,
                  setMethodRangeSet, hinsert]

/-- The section of `removeMethod` is the step of that name; both fail at the assertion that the
range was there. -/
theorem finish_removeMethod (methodId codeAddr : Nat) (k : Answer → Prog MethodCaches α)
    (s : MethodCaches) :
    (∃ manager, s.codeCacheManager.removeMethod methodId codeAddr = .ok manager ∧
        (removeMethodBody methodId codeAddr >>= k).finish s =
          (k .nothing).finish { s with codeCacheManager := manager }) ∨
      (∃ fault, s.codeCacheManager.removeMethod methodId codeAddr = .error fault) ∧
        ((removeMethodBody methodId codeAddr >>= k).finish s).2 = .abort := by
  unfold removeMethodBody CodeCacheManager.removeMethod
  cases hgroup : s.codeCacheManager.methodIdMap.lookup methodId with
  | none => exact .inl ⟨_, rfl, by simp [Prog.finish, hgroup]⟩
  | some group =>
      cases hremove : s.codeCacheManager.methodRangeSet.remove codeAddr with
      | mk removed rs =>
          cases removed with
          | false =>
              refine .inr ⟨⟨.assertion, rfl⟩, ?_⟩
              simp [removeFromGroup, removeRange, Prog.finish, hgroup, setGroup, hremove]
          | true =>
              refine .inl ⟨_, rfl, ?_⟩
              simp only [removeFromGroup, removeRange, Prog.load_bind, Prog.update_bind,
                Prog.done_bind, Prog.finish, hgroup, setGroup, setMethodRangeSet, hremove]
              rfl

/-- `addMethodAndRemoveFromUncompiledSet` leaves a group where it is. -/
theorem finish_addAndRemove (methodId : Nat) (k : Answer → Prog MethodCaches α)
    (s : MethodCaches) : ∃ s₁, (addAndRemoveBody methodId >>= k).finish s =
      (k (.method none)).finish s₁ ∧ Same s₁ (s.addMethodAndRemoveFromUncompiledSet methodId) := by
  unfold addAndRemoveBody
  simp only [Prog.update_bind, Prog.bind_assoc, Prog.finish, finish_findGroup]
  refine ⟨_, rfl, ?_⟩
  cases h : s.codeCacheManager.methodIdMap.lookup methodId with
  | none =>
      simp only [addMethodAndRemoveFromUncompiledSet, h]
      exact .refl _
  | some group =>
      simp only [addMethodAndRemoveFromUncompiledSet, h]
      exact ⟨fun id => (lookup_insert_self h id).symm, rfl, rfl, rfl, rfl, rfl⟩

/-- The section of `checkAndMoveMethodToUncompiledSet` is the step of that name. -/
theorem finish_checkAndMove (methodId : Nat) (k : Answer → Prog MethodCaches α)
    (s : MethodCaches) : (checkAndMoveBody methodId >>= k).finish s =
      (k .nothing).finish (s.checkAndMoveMethodToUncompiledSet methodId) := by
  unfold checkAndMoveBody checkAndMoveMethodToUncompiledSet
  simp only [Prog.load_bind, Prog.finish]
  cases s.codeCacheManager.methodIdMap.lookup methodId with
  | none => rfl
  | some group => rfl

end Finish

/-! ### Steps on equal caches

Equal caches give the same answers, and a step that goes through on one of them goes through on
the other and ends in equal caches. -/

section Congr

variable {s s' s₁ : MethodCaches}

/-- It does not matter which of the two caches is the first. -/
theorem Same.symm (h : Same s s') : Same s' s :=
  ⟨fun id => (h.lookup id).symm, h.ranges.symm, h.methods.symm, h.pending.symm, h.deleted.symm,
    h.uncompiled.symm⟩

/-- Caches in between can be left out. -/
theorem Same.trans {s'' : MethodCaches} (h : Same s s') (h' : Same s' s'') : Same s s'' :=
  ⟨fun id => (h.lookup id).trans (h'.lookup id), h.ranges.trans h'.ranges,
    h.methods.trans h'.methods, h.pending.trans h'.pending, h.deleted.trans h'.deleted,
    h.uncompiled.trans h'.uncompiled⟩

/-- The look-up by id depends on the group of the id and not on where the group is stored. -/
theorem Same.getMethodById (h : Same s s') (order : CodeCacheManager.IterationOrder)
    (methodId : Nat) : s.codeCacheManager.getMethodById order methodId =
      s'.codeCacheManager.getMethodById order methodId := by
  have hversion : s.codeCacheManager.versionOf = s'.codeCacheManager.versionOf := by
    funext m
    rw [CodeCacheManager.versionOf, h.methods]
    rfl
  unfold CodeCacheManager.getMethodById CodeCacheManager.getMethodByVersion
  rw [h.lookup, hversion]

/-- A step on the first caches can be made on the second ones. Only `_method_id_map` is
compared by look-ups, so in each case the work is to replay the step with the other map. -/
theorem Same.step_ok {e : Event} (h : Same s s') (hstep : s.step e = .ok s₁) :
    ∃ s₁', s'.step e = .ok s₁' ∧ Same s₁ s₁' := by
  obtain ⟨⟨map, rs, methods, pending, deleted⟩, uncompiled⟩ := s
  obtain ⟨⟨map', rs', methods', pending', deleted'⟩, uncompiled'⟩ := s'
  obtain ⟨hlookup, rfl, rfl, rfl, rfl, rfl⟩ := h
  dsimp only at hlookup
  cases e with
  | codeCache e =>
      obtain ⟨m₁, hm, rfl⟩ := map_eq_ok.mp hstep
      cases e with
      | beginAdd id codeSize codeAddr =>
          cases hm
          refine ⟨_, rfl, ?_, rfl, ?_, rfl, rfl, rfl⟩
          · intro id'
            simp only [CodeCacheManager.beginAdd, hlookup id]
            exact lookup_insert_congr hlookup _ _ id'
          · simp only [CodeCacheManager.beginAdd, hlookup id]
      | finishAdd p =>
          simp only [CodeCacheManager.step, CodeCacheManager.finishAdd] at hm
          cases hmethod : methods[p]? with
          | none =>
              simp only [hmethod] at hm
              cases hm
          | some m =>
              cases hgroup : map.lookup m.methodId with
              | none =>
                  simp only [hmethod, hgroup] at hm
                  cases hm
              | some group =>
                  simp only [hmethod, hgroup] at hm
                  obtain ⟨⟨inserted, rs₁⟩, hinsert, hm⟩ := bind_eq_ok.mp hm
                  obtain ⟨_, hassert, hm⟩ := bind_eq_ok.mp hm
                  cases hm
                  -- the other map has the same group, and so the step takes the same branches
                  -- there
                  have hm' : CodeCacheManager.step ⟨map', rs, methods, pending, deleted⟩
                      (.finishAdd p) = .ok ⟨map'.insert m.methodId { group with
                        addressMethodMap := group.addressMethodMap.insert m.startAddr p }, rs₁,
                        methods, pending.erase p, deleted⟩ := by
                    simp only [CodeCacheManager.step, CodeCacheManager.finishAdd, hmethod,
                      ← hlookup, hgroup, hinsert, hassert, ok_bind]
                    rfl
                  exact ⟨_, map_eq_ok.mpr ⟨_, hm', rfl⟩, lookup_insert_congr hlookup _ _, rfl,
                    rfl, rfl, rfl, rfl⟩
      | removeMethod id addr =>
          simp only [CodeCacheManager.step, CodeCacheManager.removeMethod] at hm
          cases hgroup : map.lookup id with
          | none =>
              simp only [hgroup] at hm
              cases hm
              have hm' : CodeCacheManager.step ⟨map', rs, methods, pending, deleted⟩
                  (.removeMethod id addr) = .ok ⟨map', rs, methods, pending, deleted⟩ := by
                simp only [CodeCacheManager.step, CodeCacheManager.removeMethod, ← hlookup, hgroup]
              exact ⟨_, map_eq_ok.mpr ⟨_, hm', rfl⟩, hlookup, rfl, rfl, rfl, rfl, rfl⟩
          | some group =>
              simp only [hgroup] at hm
              obtain ⟨_, hassert, hm⟩ := bind_eq_ok.mp hm
              cases hm
              have hm' : CodeCacheManager.step ⟨map', rs, methods, pending, deleted⟩
                  (.removeMethod id addr) = .ok ⟨map'.insert id
                    (CodeCacheManager.removeMethodByAddr group addr).1, (rs.remove addr).2, methods,
                    pending, (CodeCacheManager.removeMethodByAddr group addr).2 ++ deleted⟩ := by
                simp only [CodeCacheManager.step, CodeCacheManager.removeMethod, ← hlookup, hgroup,
                  hassert, ok_bind]
                rfl
              exact ⟨_, map_eq_ok.mpr ⟨_, hm', rfl⟩, lookup_insert_congr hlookup _ _, rfl, rfl, rfl,
                rfl, rfl⟩
  | addMethodAndRemoveFromUncompiledSet id =>
      cases hstep
      refine ⟨_, rfl, fun id' => ?_, rfl, rfl, rfl, rfl, rfl⟩
      simp only [addMethodAndRemoveFromUncompiledSet, hlookup id]
      exact lookup_insert_congr hlookup _ _ id'
  | checkAndMoveMethodToUncompiledSet id =>
      cases hstep
      refine ⟨_, rfl, ?_⟩
      simp only [checkAndMoveMethodToUncompiledSet, ← hlookup]
      cases map.lookup id with
      | none => exact ⟨hlookup, rfl, rfl, rfl, rfl, rfl⟩
      | some group => exact ⟨hlookup, rfl, rfl, rfl, rfl, rfl⟩

/-- A step that fails on the first caches fails on the second ones, since it cannot go through. -/
theorem Same.step_error {e : Event} {fault : Fault} (h : Same s s')
    (hstep : s.step e = .error fault) : ∃ fault', s'.step e = .error fault' := by
  cases hstep' : s'.step e with
  | error fault' => exact ⟨fault', rfl⟩
  | ok s₁ =>
      obtain ⟨s₂, hok, -⟩ := h.symm.step_ok hstep'
      rw [hstep] at hok
      cases hok

end Congr

/-! ### One section

What a thread does from `lock` to `unlock` is compared with `Caller.runSection`, the section as
a step of `CallState`. The two start in equal caches, and the comparison has to allow that an
assertion fails: the thread has then aborted, and the step is an error. -/

section Section

variable {s s' : MethodCaches} {t : Caller}

/-- A thread without an object goes on with its calls. -/
theorem Caller.prog_of_not_adding (h : t.adding = none) : t.prog = makeCalls t.calls t.answers := by
  unfold Caller.prog
  rw [h]

/-- The statements of a section and the section as a step, on equal caches: both go through, or
an assertion fails. -/
def Caller.Agrees (t : Caller) (s s' : MethodCaches) : Prop :=
  ∃ next, t.prog = .lock next ∧
    ((∃ s₁ s₁' t₁, t.runSection s' = .ok (s₁', t₁) ∧ next.finish s = (s₁, t₁.prog) ∧ Same s₁ s₁') ∨
      (∃ fault, t.runSection s' = .error fault) ∧ (next.finish s).2 = .abort)

/-- A call that returns after its section. -/
theorem Caller.agrees_of_returns {call : Call} {calls : List Call} {answers : List Answer}
    {e : Event} {answer : Answer} (hsame : Same s s')
    (hsection : Caller.runSection s' ⟨call :: calls, none, answers⟩ =
      (s'.step e).map fun s₁ => (s₁, Caller.returns answer ⟨call :: calls, none, answers⟩))
    (hfinish : ∀ k : Answer → Prog MethodCaches (List Answer),
      (∃ s₁ s₂, s.step e = .ok s₂ ∧ (call.body >>= k).finish s = (k answer).finish s₁ ∧
          Same s₁ s₂) ∨
        (∃ fault, s.step e = .error fault) ∧ ((call.body >>= k).finish s).2 = .abort) :
    Caller.Agrees ⟨call :: calls, none, answers⟩ s s' := by
  refine ⟨_, (Caller.prog_of_not_adding rfl).trans (makeCalls_cons call calls answers), ?_⟩
  rcases hfinish fun answer => .unlock (makeCalls calls (answers ++ [answer])) with
    ⟨s₁, s₂, hstep, hfinish, hsame₁⟩ | ⟨⟨fault, hstep⟩, habort⟩
  · obtain ⟨s₁', hstep', hsame'⟩ := hsame.step_ok hstep
    exact .inl ⟨s₁, s₁', Caller.returns answer ⟨call :: calls, none, answers⟩,
      by rw [hsection, hstep']; rfl, hfinish.trans rfl, hsame₁.trans hsame'⟩
  · obtain ⟨fault', hstep'⟩ := hsame.step_error hstep
    exact .inr ⟨⟨fault', by rw [hsection, hstep']; rfl⟩, habort⟩

/-- A call that only looks at the caches. -/
theorem Caller.agrees_of_look {call : Call} {calls : List Call} {answers : List Answer}
    {answer : Answer} (hsame : Same s s')
    (hsection : Caller.runSection s' ⟨call :: calls, none, answers⟩ =
      .ok (s', Caller.returns answer ⟨call :: calls, none, answers⟩))
    (hfinish : ∀ k : Answer → Prog MethodCaches (List Answer),
      (call.body >>= k).finish s = (k answer).finish s) :
    Caller.Agrees ⟨call :: calls, none, answers⟩ s s' :=
  ⟨_, (Caller.prog_of_not_adding rfl).trans (makeCalls_cons call calls answers),
    .inl ⟨s, s', _, hsection, (hfinish _).trans rfl, hsame⟩⟩

/-- `addMethod` in its two sections: which one is next is told by whether the thread has an
object. -/
theorem Caller.agrees_addMethod {methodId codeSize codeAddr : Nat} {calls : List Call}
    {adding : Option Nat} {answers : List Answer} (hsame : Same s s')
    (hadds : Caller.Adds s' ⟨.addMethod methodId codeSize codeAddr :: calls, adding, answers⟩) :
    Caller.Agrees ⟨.addMethod methodId codeSize codeAddr :: calls, adding, answers⟩ s s' := by
  cases adding with
  | none =>
      -- the first section: it makes the object, which gets the next free number
      refine ⟨_, (Caller.prog_of_not_adding rfl).trans (makeCalls_cons _ calls answers), .inl ?_⟩
      obtain ⟨s₁', hstep, hsame'⟩ := hsame.step_ok
        (e := .codeCache (.beginAdd methodId codeSize codeAddr)) rfl
      refine ⟨_, s₁', ⟨.addMethod methodId codeSize codeAddr :: calls,
        some s'.codeCacheManager.methods.length, answers⟩, ?_, ?_, hsame'⟩
      · simp only [Caller.runSection]
        rw [hstep]
        rfl
      · rw [← hsame.methods]
        exact finish_beginAdd methodId codeSize codeAddr _ s
  | some newMethod =>
      -- the second section: the object is still what the first one made (`Adds`)
      obtain ⟨-, _, _, _, _, version, hcalls, hmethod⟩ := hadds newMethod rfl
      cases hcalls
      rw [← hsame.methods] at hmethod
      refine ⟨_, rfl, ?_⟩
      rcases finish_finishAdd (fun answer => .unlock (makeCalls calls (answers ++ [answer])))
        hmethod with ⟨manager, hfinishAdd, hfinish⟩ | ⟨⟨fault, hfinishAdd⟩, habort⟩
      · obtain ⟨s₁', hstep, hsame'⟩ := hsame.step_ok (e := .codeCache (.finishAdd newMethod))
          (map_eq_ok.mpr ⟨manager, hfinishAdd, rfl⟩)
        refine .inl ⟨_, s₁', Caller.returns (.method (some newMethod))
          ⟨.addMethod methodId codeSize codeAddr :: calls, some newMethod, answers⟩, ?_,
          hfinish.trans rfl, hsame'⟩
        simp only [Caller.runSection]
        rw [hstep]
        rfl
      · obtain ⟨fault', hstep⟩ := hsame.step_error (e := .codeCache (.finishAdd newMethod))
          (map_eq_error.mpr hfinishAdd)
        refine .inr ⟨⟨fault', ?_⟩, habort⟩
        simp only [Caller.runSection]
        rw [hstep]
        rfl

/-- A thread that has a call to make runs the statements of a section as the section. -/
theorem Caller.agrees (hsame : Same s s') (hadds : t.Adds s') (hcalls : t.calls ≠ []) :
    t.Agrees s s' := by
  obtain ⟨calls, adding, answers⟩ := t
  cases adding with
  | some newMethod =>
      obtain ⟨-, methodId, codeSize, codeAddr, rest, -, rfl, -⟩ := hadds newMethod rfl
      exact agrees_addMethod hsame hadds
  | none =>
      cases calls with
      | nil => exact absurd rfl hcalls
      | cons call calls =>
          cases call with
          | addMethod methodId codeSize codeAddr => exact agrees_addMethod hsame hadds
          | removeMethod methodId codeAddr =>
              refine agrees_of_returns hsame rfl fun k => ?_
              rcases finish_removeMethod methodId codeAddr k s with
                ⟨manager, hremove, hfinish⟩ | ⟨⟨fault, hremove⟩, habort⟩
              · exact .inl ⟨_, _, map_eq_ok.mpr ⟨manager, hremove, rfl⟩, hfinish, .refl _⟩
              · exact .inr ⟨⟨fault, map_eq_error.mpr hremove⟩, habort⟩
          | addMethodAndRemoveFromUncompiledSet methodId =>
              refine agrees_of_returns (e := .addMethodAndRemoveFromUncompiledSet methodId) hsame
                rfl fun k => ?_
              obtain ⟨s₁, hfinish, hsame₁⟩ := finish_addAndRemove methodId k s
              exact .inl ⟨s₁, _, rfl, hfinish, hsame₁⟩
          | checkAndMoveMethodToUncompiledSet methodId =>
              exact agrees_of_returns (e := .checkAndMoveMethodToUncompiledSet methodId) hsame
                rfl fun k => .inl ⟨_, _, rfl, finish_checkAndMove methodId k s, .refl _⟩
          | getMethod addr =>
              refine agrees_of_look hsame rfl fun k => ?_
              show (k _).finish s = _
              rw [CodeCacheManager.getMethod, hsame.ranges]
              rfl
          | getMethodById order methodId =>
              refine agrees_of_look hsame rfl fun k => ?_
              show (k _).finish s = _
              rw [hsame.getMethodById]
          | findMethodByAddr addr =>
              refine agrees_of_look hsame rfl fun k => ?_
              show (k _).finish s = _
              rw [CodeCacheManager.findMethodByAddr, hsame.ranges, hsame.methods]
              rfl

end Section

/-! ### The discipline of the lock

Between `lock` and `unlock` a body only loads and stores, and outside of the two it touches
nothing. This is all that the spin lock's theorems ask for. -/

/-- To look a group up and go on with it keeps the lock, if what comes after it does. -/
theorem keeps_onGroup {α : Type} {methodId : Nat} {next : CompiledMethodGroup → Prog MethodCaches α}
    (h : ∀ group, (next group).Keeps true true) : (onGroup methodId next).Keeps true true := by
  unfold onGroup
  simp only [Prog.keeps_load, true_and]
  intro s
  cases s.codeCacheManager.methodIdMap.lookup methodId with
  | none => simp
  | some group => exact h group

/-- To find or make the group of a method keeps the lock. -/
theorem keeps_findGroup (methodId : Nat) : (findGroup methodId).Keeps true true := by
  unfold findGroup
  simp only [Prog.keeps_load, true_and]
  intro s
  cases s.codeCacheManager.methodIdMap.lookup methodId with
  | none => simp
  | some group => simp

/-- The second section of `addMethod` keeps the lock to its end. -/
theorem keeps_addMethodRest (methodId codeSize codeAddr newMethod : Nat) :
    (addMethodRest methodId codeSize codeAddr newMethod).Keeps true true := by
  have hinsert : (insertRange codeSize codeAddr newMethod).Keeps true true := by
    unfold insertRange
    simp only [Prog.keeps_load, true_and]
    intro s
    split <;> simp
  refine (keeps_onGroup fun _ => by simp).bind fun _ => hinsert.bind fun _ => ?_
  exact Prog.Keeps.bind (m := true) (by simp [endMethod]) fun _ => rfl

/-- `addMethod` keeps the lock to the end of its first section, and goes on with the second
one. -/
theorem keeps_addMethodBody (methodId codeSize codeAddr : Nat) :
    (addMethodBody methodId codeSize codeAddr).Keeps true true := by
  refine (keeps_findGroup methodId).bind fun _ => (keeps_onGroup fun _ => by simp).bind fun _ => ?_
  refine Prog.Keeps.bind (m := true) (by simp [startMethod]) fun newMethod => ?_
  -- the lock is free between the two sections
  refine Prog.Keeps.bind (m := false) (by simp [unsetLock]) fun _ => ?_
  refine Prog.Keeps.bind (m := true) (by simp [setLock]) fun _ => ?_
  exact keeps_addMethodRest methodId codeSize codeAddr newMethod

/-- `removeMethod` keeps the lock, also where its assertion fails. -/
theorem keeps_removeMethodBody (methodId codeAddr : Nat) :
    (removeMethodBody methodId codeAddr).Keeps true true := by
  have hremove : (removeRange codeAddr).Keeps true true := by
    unfold removeRange
    simp only [Prog.keeps_load, true_and]
    intro s
    split <;> simp
  unfold removeMethodBody
  simp only [Prog.keeps_load, true_and]
  intro s
  cases s.codeCacheManager.methodIdMap.lookup methodId with
  | none => rfl
  | some group =>
      refine Prog.Keeps.bind (m := true) (by simp [removeFromGroup]) fun _ => ?_
      exact hremove.bind fun _ => rfl

/-- Every body keeps the lock to its end. -/
theorem Call.keeps_body (call : Call) : call.body.Keeps true true := by
  cases call with
  | addMethod methodId codeSize codeAddr => exact keeps_addMethodBody methodId codeSize codeAddr
  | addMethodAndRemoveFromUncompiledSet methodId =>
      exact ⟨rfl, (keeps_findGroup methodId).bind fun _ => rfl⟩
  | removeMethod methodId codeAddr => exact keeps_removeMethodBody methodId codeAddr
  | checkAndMoveMethodToUncompiledSet methodId =>
      simp only [Call.body, checkAndMoveBody, Prog.keeps_load, true_and]
      intro s
      cases s.codeCacheManager.methodIdMap.lookup methodId with
      | none => simp
      | some group => simp
  | getMethod addr => exact ⟨rfl, fun _ => rfl⟩
  | getMethodById order methodId => exact ⟨rfl, fun _ => rfl⟩
  | findMethodByAddr addr => exact ⟨rfl, fun _ => rfl⟩

/-- A thread that makes its calls one after another is outside the lock before and after each. -/
theorem keeps_makeCalls (calls : List Call) (answers : List Answer) :
    (makeCalls calls answers).Keeps false false := by
  induction calls generalizing answers with
  | nil => exact rfl
  | cons call calls ih => exact call.keeps_body.withLock.bind fun answer => ih _

/-- Threads that make calls keep the discipline. -/
theorem owned_start {ι : Type} [DecidableEq ι] (calls : ι → List Call) :
    (start calls).Owned none :=
  ⟨rfl, fun i => by simpa [start] using keeps_makeCalls (calls i) []⟩

/-! ### Runs of whole sections

A section of a thread can go in five ways, and `Turn` lists them, so that an invariant of these
runs is proved by five cases instead of by the branches of `runSection`. -/

section Turns

variable {s s₁ : MethodCaches} {t t₁ : Caller}

/-- The ways a section of a thread can go: there is no call, `addMethod` begins or ends, another
call changes the caches, or one looks at them. -/
inductive Turn (s : MethodCaches) (t : Caller) : MethodCaches → Caller → Prop
  | idle : Turn s t s t
  | begins {methodId codeSize codeAddr : Nat} {calls : List Call} {s₁ : MethodCaches}
      (hcalls : t.calls = .addMethod methodId codeSize codeAddr :: calls)
      (hstep : s.step (.codeCache (.beginAdd methodId codeSize codeAddr)) = .ok s₁) :
      Turn s t s₁ { t with adding := some s.codeCacheManager.methods.length }
  | ends {newMethod : Nat} {s₁ : MethodCaches} (hadding : t.adding = some newMethod)
      (hstep : s.step (.codeCache (.finishAdd newMethod)) = .ok s₁) :
      Turn s t s₁ (t.returns (.method (some newMethod)))
  | changes {e : Event} {answer : Answer} {s₁ : MethodCaches}
      (hevent : ∀ newMethod, e ≠ .codeCache (.finishAdd newMethod))
      (hstep : s.step e = .ok s₁) : Turn s t s₁ (t.returns answer)
  | looks (answer : Answer) : Turn s t s (t.returns answer)

/-- **The step of a section**, inverted: it is one of the five. -/
theorem turn_of_runSection (h : t.runSection s = .ok (s₁, t₁)) : Turn s t s₁ t₁ := by
  unfold Caller.runSection at h
  split at h
  · cases h
    exact .idle
  · rename_i methodId codeSize codeAddr calls hcalls
    split at h
    · obtain ⟨s₂, hstep, heq⟩ := map_eq_ok.mp h
      cases heq
      exact .begins hcalls hstep
    · rename_i newMethod hadding
      obtain ⟨s₂, hstep, heq⟩ := map_eq_ok.mp h
      cases heq
      exact .ends hadding hstep
  · obtain ⟨s₂, hstep, heq⟩ := map_eq_ok.mp h
    cases heq
    exact .changes (by simp) hstep
  · obtain ⟨s₂, hstep, heq⟩ := map_eq_ok.mp h
    cases heq
    exact .changes (by simp) hstep
  · obtain ⟨s₂, hstep, heq⟩ := map_eq_ok.mp h
    cases heq
    exact .changes (by simp) hstep
  · cases h
    exact .looks _
  · cases h
    exact .looks _
  · cases h
    exact .looks _

/-- The events of a section: one that changes the caches, or none. -/
theorem Turn.events (h : Turn s t s₁ t₁) :
    ∃ events : List Event, events.foldlM step s = .ok s₁ := by
  cases h with
  | idle => exact ⟨[], rfl⟩
  | begins _ hstep => exact ⟨[_], by simpa using hstep⟩
  | ends _ hstep => exact ⟨[_], by simpa using hstep⟩
  | changes _ hstep => exact ⟨[_], by simpa using hstep⟩
  | looks => exact ⟨[], rfl⟩

end Turns

/-! ### What no step undoes

An object is never changed after it was made, and it is pending until its own `finishAdd`. So a
call of `addMethod` finds its object again, whatever the others did between its two sections. -/

section Kept

variable {s s₁ : MethodCaches} {e : Event}

/-- The objects stay what they are, and a call in progress stays in progress until it ends. -/
theorem step_kept (h : s.step e = .ok s₁) :
    (∀ (p : Nat) (m : CompiledMethod), s.codeCacheManager.methods[p]? = some m →
        s₁.codeCacheManager.methods[p]? = some m) ∧
      ∀ p ∈ s.codeCacheManager.pending, e ≠ .codeCache (.finishAdd p) →
        p ∈ s₁.codeCacheManager.pending := by
  cases e with
  | codeCache e =>
      obtain ⟨m₁, hm, rfl⟩ := map_eq_ok.mp h
      cases e with
      | beginAdd methodId codeSize codeAddr =>
          cases hm
          refine ⟨fun p m hp => ?_, fun p hp _ => List.mem_cons_of_mem _ hp⟩
          simp only [CodeCacheManager.beginAdd]
          rw [List.getElem?_append_left (List.getElem?_eq_some_iff.mp hp).1, hp]
      | finishAdd q =>
          obtain ⟨m, -, hs, hpending, -, -⟩ := CodeCacheManager.finishAdd_changes hm
          refine ⟨fun p m hp => by rw [hs.methods_eq, hp], fun p hp hne => ?_⟩
          rw [hpending]
          refine (List.mem_erase_of_ne ?_).mpr hp
          intro heq
          exact hne (by rw [heq])
      | removeMethod methodId codeAddr =>
          obtain rfl | ⟨hs, hpending, -, -⟩ := CodeCacheManager.removeMethod_changes hm
          · exact ⟨fun _ _ hp => hp, fun _ hp _ => hp⟩
          · exact ⟨fun p m hp => by rw [hs.methods_eq, hp], fun p hp _ => by rwa [hpending]⟩
  | addMethodAndRemoveFromUncompiledSet methodId =>
      cases h
      exact ⟨fun _ _ hp => hp, fun _ hp _ => hp⟩
  | checkAndMoveMethodToUncompiledSet methodId =>
      cases h
      unfold checkAndMoveMethodToUncompiledSet
      split
      · exact ⟨fun _ _ hp => hp, fun _ hp _ => hp⟩
      · exact ⟨fun _ _ hp => hp, fun _ hp _ => hp⟩

/-- A group that `addMethodAndRemoveFromUncompiledSet` makes is empty. -/
theorem alive_addMethodAndRemove (h : s.codeCacheManager.Alive) (methodId : Nat) :
    (s.addMethodAndRemoveFromUncompiledSet methodId).codeCacheManager.Alive := by
  have hentry : ∀ id addr,
      (s.addMethodAndRemoveFromUncompiledSet methodId).codeCacheManager.entry id addr =
        s.codeCacheManager.entry id addr := by
    intro id addr
    simp only [CodeCacheManager.entry, addMethodAndRemoveFromUncompiledSet]
    by_cases hid : id = methodId
    · rw [hid, AList.lookup_insert]
      cases s.codeCacheManager.methodIdMap.lookup methodId with
      | none => simp
      | some group => rfl
    · rw [AList.lookup_insert_ne hid]
  refine ⟨fun id group hgroup => ?_, fun id addr p hp => ?_, h.range, h.pending, h.deleted⟩
  · simp only [addMethodAndRemoveFromUncompiledSet] at hgroup
    by_cases hid : id = methodId
    · rw [hid, AList.lookup_insert, Option.some.injEq] at hgroup
      rw [hid, ← hgroup]
      cases hlook : s.codeCacheManager.methodIdMap.lookup methodId with
      | none => rfl
      | some group => exact h.group methodId group hlook
    · rw [AList.lookup_insert_ne hid] at hgroup
      exact h.group id group hgroup
  · rw [hentry] at hp
    exact h.entry id addr p hp

/-- Every event keeps the code cache alive, if a `finishAdd` is for an object that is pending. -/
theorem step_alive (h : s.codeCacheManager.Alive)
    (hpending : ∀ p, e = .codeCache (.finishAdd p) → p ∈ s.codeCacheManager.pending)
    (hstep : s.step e = .ok s₁) : s₁.codeCacheManager.Alive := by
  cases e with
  | codeCache e =>
      obtain ⟨m₁, hm, rfl⟩ := map_eq_ok.mp hstep
      cases e with
      | beginAdd methodId codeSize codeAddr =>
          cases hm
          exact h.beginAdd methodId codeSize codeAddr
      | finishAdd p => exact h.finishAdd (hpending p rfl) hm
      | removeMethod methodId codeAddr => exact h.removeMethod hm
  | addMethodAndRemoveFromUncompiledSet methodId =>
      cases hstep
      exact alive_addMethodAndRemove h methodId
  | checkAndMoveMethodToUncompiledSet methodId =>
      cases hstep
      unfold checkAndMoveMethodToUncompiledSet
      split
      · exact h
      · exact h

end Kept

/-! ### Reachable states

`Valid` holds before and after every section. Its last part is what makes `addMethod` safe: two
calls never have the same object, so no other call ends the one that this call has begun. -/

namespace CallState

variable {ι : Type} {t t₁ : CallState ι}

/-- What holds before and after every section. -/
structure Valid (t : CallState ι) : Prop where
  alive : t.caches.codeCacheManager.Alive
  adds : ∀ i, (t.callers i).Adds t.caches
  /-- A call has its object to itself. -/
  own : ∀ i j p, (t.callers i).adding = some p → (t.callers j).adding = some p → i = j

/-- Nobody has begun anything at the start. -/
theorem valid_start (calls : ι → List Call) : (start calls).Valid where
  alive := CodeCacheManager.alive_new
  adds i p hp := by cases hp
  own i j p hp := by cases hp

/-- The other callers keep their objects. -/
theorem Valid.adds_of_step {e : Event} {s₁ : MethodCaches} {j : ι} (h : t.Valid)
    (hstep : t.caches.step e = .ok s₁)
    (hother : ∀ p, (t.callers j).adding = some p → e ≠ .codeCache (.finishAdd p)) :
    (t.callers j).Adds s₁ := by
  intro p hp
  obtain ⟨hpending, methodId, codeSize, codeAddr, calls, version, hcalls, hmethod⟩ := h.adds j p hp
  obtain ⟨hmethods, hkept⟩ := step_kept hstep
  exact ⟨hkept p hpending (hother p hp), methodId, codeSize, codeAddr, calls, version, hcalls,
    hmethods p _ hmethod⟩

/-- Threads that run whole sections are where the run of sections is, or one has aborted. -/
def Follows (a : System MethodCaches ι (List Answer)) : Except Fault (CallState ι) → Prop
  | .ok t => t.Valid ∧ Same a.data t.caches ∧ ∀ i, a.threads i = (t.callers i).prog
  | .error _ => ∃ i, a.threads i = .abort

/-- At the start nobody has run a section on either side. -/
theorem follows_start (calls : ι → List Call) :
    Follows (MethodCaches.start calls) (.ok (start calls)) :=
  ⟨valid_start calls, .refl _, fun _ => rfl⟩

variable [DecidableEq ι]

/-- A caller that has no object any more, or a new one. -/
theorem Valid.set {s₁ : MethodCaches} {caller : Caller} {i : ι} (h : t.Valid)
    (halive : s₁.codeCacheManager.Alive) (hadds : caller.Adds s₁)
    (hothers : ∀ j, j ≠ i → (t.callers j).Adds s₁)
    (hnew : ∀ j p, j ≠ i → caller.adding = some p → (t.callers j).adding ≠ some p) :
    (⟨s₁, Function.update t.callers i caller⟩ : CallState ι).Valid := by
  refine ⟨halive, fun j => ?_, fun j k p hj hk => ?_⟩
  · rcases eq_or_ne j i with rfl | hne
    · simpa using hadds
    · simpa [Function.update_of_ne hne] using hothers j hne
  · dsimp only at hj hk
    rcases eq_or_ne j i with rfl | hj'
    · rcases eq_or_ne k j with rfl | hk'
      · rfl
      · rw [Function.update_self] at hj
        rw [Function.update_of_ne hk'] at hk
        exact absurd hk (hnew k p hk' hj)
    · rw [Function.update_of_ne hj'] at hj
      rcases eq_or_ne k i with rfl | hk'
      · rw [Function.update_self] at hk
        exact absurd hj (hnew j p hj' hk)
      · rw [Function.update_of_ne hk'] at hk
        exact h.own j k p hj hk

/-- A caller whose call has returned has no object. -/
theorem adds_returns (answer : Answer) (caller : Caller) (s : MethodCaches) :
    (caller.returns answer).Adds s := by
  intro p hp
  cases hp

/-- A caller that begins `addMethod` has the new object, which is pending. -/
theorem adds_begins {s : MethodCaches} {caller : Caller} {methodId codeSize codeAddr : Nat}
    {calls : List Call} (h : s.codeCacheManager.Alive)
    (hcalls : caller.calls = .addMethod methodId codeSize codeAddr :: calls) :
    Caller.Adds
      { s with codeCacheManager := s.codeCacheManager.beginAdd methodId codeSize codeAddr }
      { caller with adding := some s.codeCacheManager.methods.length } := by
  intro p hp
  obtain rfl : s.codeCacheManager.methods.length = p := Option.some.inj hp
  have hid : ((s.codeCacheManager.methodIdMap.lookup methodId).getD ⟨methodId, 0, ∅⟩).methodId =
      methodId := by
    cases hlook : s.codeCacheManager.methodIdMap.lookup methodId with
    | none => rfl
    | some group => exact h.group methodId group hlook
  refine ⟨List.mem_cons_self, methodId, codeSize, codeAddr, calls,
    (((s.codeCacheManager.methodIdMap.lookup methodId).getD ⟨methodId, 0, ∅⟩).recentVersion + 1) %
      2 ^ 32, hcalls, ?_⟩
  simp [CodeCacheManager.beginAdd, hid]

/-- A section keeps the invariant, whichever of the five ways it goes. -/
theorem Valid.step {i : ι} (h : t.Valid) (hstep : t.step i = .ok t₁) : t₁.Valid := by
  obtain ⟨⟨s₁, caller⟩, hrun, rfl⟩ := map_eq_ok.mp hstep
  have hturn := turn_of_runSection hrun
  dsimp only at hturn ⊢
  generalize hcaller : t.callers i = old at hturn
  cases hturn with
  | idle =>
      refine h.set h.alive (hcaller ▸ h.adds i) (fun j _ => h.adds j) fun j p hne hi hj => ?_
      exact hne (h.own j i p hj (hcaller ▸ hi))
  | begins hcalls hevent =>
      have halive := step_alive h.alive (by simp) hevent
      have hothers : ∀ j, j ≠ i → (t.callers j).Adds s₁ :=
        fun j _ => h.adds_of_step hevent (by simp)
      cases hevent
      refine h.set halive (adds_begins h.alive hcalls) hothers fun j p _ hi hj => ?_
      -- the new object is one past the last, and nobody else can have it yet
      obtain rfl : t.caches.codeCacheManager.methods.length = p := Option.some.inj hi
      exact absurd (h.alive.pending.2 _ (h.adds j _ hj).1).1 (Nat.lt_irrefl _)
  | @ends newMethod _ hadding hevent =>
      rw [← hcaller] at hadding
      refine h.set (step_alive h.alive ?_ hevent) (adds_returns _ _ _) (fun j hne => ?_)
        fun j p _ hi => by cases hi
      · intro p hp
        cases hp
        exact (h.adds i _ hadding).1
      · -- another caller that ended this object would be the same caller
        refine h.adds_of_step hevent fun p hp heq => hne ?_
        cases heq
        exact h.own j i newMethod hp hadding
  | changes hother hevent =>
      refine h.set (step_alive h.alive (fun p hp => absurd hp (hother p)) hevent)
        (adds_returns _ _ _) (fun j _ => h.adds_of_step hevent fun p _ => hother p)
        fun j p _ hi => by cases hi
  | looks answer =>
      exact h.set h.alive (adds_returns _ _ _) (fun j _ => h.adds j) fun j p _ hi => by cases hi

/-- The invariant holds after any sections. -/
theorem Valid.run {schedule : List ι} (h : t.Valid) (hrun : t.run schedule = .ok t₁) : t₁.Valid :=
  foldlM_preserves (fun _ _ _ _ h hstep => Valid.step h hstep) h hrun

/-- The caches after some sections are those after some events, so all that is known of runs of
events holds of them. -/
theorem run_events {schedule : List ι} (hrun : t.run schedule = .ok t₁) :
    ∃ events : List Event, events.foldlM MethodCaches.step t.caches = .ok t₁.caches := by
  induction schedule generalizing t with
  | nil =>
      cases hrun
      exact ⟨[], rfl⟩
  | cons i schedule ih =>
      rw [CallState.run, List.foldlM_cons] at hrun
      obtain ⟨t₂, hstep, hrun⟩ := bind_eq_ok.mp hrun
      obtain ⟨⟨s₂, caller⟩, hsection, rfl⟩ := map_eq_ok.mp hstep
      obtain ⟨first, hfirst⟩ := (turn_of_runSection hsection).events
      obtain ⟨rest, hrest⟩ := ih hrun
      refine ⟨first ++ rest, ?_⟩
      rw [List.foldlM_append, hfirst]
      exact hrest

/-- One section of the threads is one section of the run. A thread that has no call left is
done, and its turn changes nothing on either side. -/
theorem Follows.step {a : System MethodCaches ι (List Answer)} (h : Follows a (.ok t)) (i : ι) :
    Follows (a.atomicStep i) (t.step i) := by
  obtain ⟨hvalid, hsame, hthreads⟩ := h
  by_cases hcalls : (t.callers i).calls = []
  · -- there is nothing left to call
    have hprog : a.threads i = .done (t.callers i).answers := by
      rw [hthreads, Caller.prog, hcalls]
      cases (t.callers i).adding <;> rfl
    have hstep : t.step i = .ok t := by
      rw [CallState.step, Caller.runSection, hcalls]
      simp [Except.map, Function.update_eq_self]
    rw [hstep, System.atomicStep, hprog]
    exact ⟨hvalid, hsame, hthreads⟩
  · obtain ⟨next, hprog, hnext⟩ := Caller.agrees hsame (hvalid.adds i) hcalls
    rcases hnext with ⟨s₁, s₁', caller, hrun, hfinish, hsame₁⟩ | ⟨⟨fault, hrun⟩, habort⟩
    · have hstep : t.step i = .ok ⟨s₁', Function.update t.callers i caller⟩ :=
        map_eq_ok.mpr ⟨_, hrun, rfl⟩
      rw [hstep, System.atomicStep, hthreads, hprog]
      refine ⟨hvalid.step hstep, ?_, fun j => ?_⟩
      · simpa [hfinish] using hsame₁
      · rcases eq_or_ne j i with rfl | hne
        · simp [hfinish]
        · simp [Function.update_of_ne hne, hthreads]
    · have hstep : t.step i = .error fault := map_eq_error.mpr hrun
      rw [hstep, System.atomicStep, hthreads, hprog]
      exact ⟨i, by simp [habort]⟩

/-- A thread that has aborted stays where it is. -/
theorem atomicStep_abort {a : System MethodCaches ι (List Answer)} {i : ι}
    (h : a.threads i = .abort) (j : ι) : (a.atomicStep j).threads i = .abort := by
  unfold System.atomicStep
  rcases eq_or_ne i j with rfl | hne
  · rw [h]
    exact h
  · split
    · exact (Function.update_of_ne hne _ _).trans h
    · exact h

/-- **The run lemma of the sections**, by induction on the turns. Once an assertion has failed
on one side it has on the other, and the rest of the run changes nothing about that. -/
theorem Follows.run {a : System MethodCaches ι (List Answer)} (h : Follows a (.ok t))
    (picks : List ι) : Follows (a.atomicRun picks) (t.run picks) := by
  induction picks generalizing a t with
  | nil => exact h
  | cons i picks ih =>
      have hstep := h.step i
      rw [CallState.run, List.foldlM_cons, System.atomicRun_cons]
      cases hnext : t.step i with
      | ok t₁ =>
          rw [hnext] at hstep
          exact ih hstep
      | error fault =>
          rw [hnext] at hstep
          obtain ⟨j, hj⟩ := hstep
          refine ⟨j, ?_⟩
          clear hnext ih
          -- the thread is still aborted after the other turns
          generalize a.atomicStep i = a' at hj
          induction picks generalizing a' with
          | nil => exact hj
          | cons k picks ih => exact ih _ (atomicStep_abort hj k)

end CallState

section Refinement

variable {ι : Type} [DecidableEq ι]

/-- While the lock is free, the threads are where a run of whole sections is: of those that took
the lock, in that order. -/
theorem exists_run_of_free {calls : ι → List Call} {schedule : List ι}
    (hfree : ((start calls).run schedule).locked = false) :
    ∃ t, (CallState.start calls).run ((start calls).lockTurns schedule) = .ok t ∧
      CallState.Follows ((start calls).run schedule) (.ok t) := by
  obtain ⟨holder, howned, hsettle⟩ := System.run_settles (owned_start calls) schedule
  have hfollows := (CallState.follows_start calls).run ((start calls).lockTurns schedule)
  have hnone : holder = none := by
    have hlocked := howned.1
    rw [hfree] at hlocked
    cases holder with
    | none => rfl
    | some i => cases hlocked
  -- nobody is in a section, so the sections that were begun are the whole story
  subst hnone
  simp only [System.settle] at hsettle
  rw [← hsettle] at hfollows
  cases hrun : (CallState.start calls).run ((start calls).lockTurns schedule) with
  | error fault =>
      -- a thread that aborts does so in a section, and keeps the lock
      rw [hrun] at hfollows
      obtain ⟨i, hi⟩ := hfollows
      have hlocked := howned.locked_of_abort hi
      rw [hfree] at hlocked
      cases hlocked
  | ok t =>
      rw [hrun] at hfollows
      exact ⟨t, rfl, hfollows⟩

/-- **Calls in sections.** Threads make calls on the code cache statement by statement, in any
order. Whenever the lock is free, the caches are what the calls do in whole sections, one for
each turn at which the lock was taken and in that order, and every thread has got from its calls
what they return there. -/
theorem calls_refine_sections (calls : ι → List Call) (schedule : List ι)
    (hfree : ((start calls).run schedule).locked = false) :
    ((start calls).lockTurns schedule).Sublist schedule ∧
      ∃ t, (CallState.start calls).run ((start calls).lockTurns schedule) = .ok t ∧
        Same ((start calls).run schedule).data t.caches ∧
        (∀ i, ((start calls).run schedule).threads i = (t.callers i).prog) ∧
        ∃ events : List Event, events.foldlM MethodCaches.step new = .ok t.caches := by
  obtain ⟨t, hrun, -, hsame, hthreads⟩ := exists_run_of_free hfree
  exact ⟨System.lockTurns_sublist _ _, t, hrun, hsame, hthreads, CallState.run_events hrun⟩

/-- One thread looks for a method while another adds it: between the sections of `addMethod`. -/
theorem calls_refine_sections_lookup :
    let calls : Bool → List Call
      | true => [.addMethod 7 16 4096]
      | false => [.getMethod 4100]
    let schedule := List.replicate 9 true ++ List.replicate 3 false ++ List.replicate 7 true
    (start calls).lockTurns schedule = [true, false, true] ∧
      ∃ t, (CallState.start calls).run [true, false, true] = .ok t ∧
        Same ((start calls).run schedule).data t.caches ∧
        (∀ i, ((start calls).run schedule).threads i = (t.callers i).prog) ∧
        ∃ events : List Event, events.foldlM MethodCaches.step new = .ok t.caches := by
  intro calls schedule
  have hturns : (start calls).lockTurns schedule = [true, false, true] := by decide +kernel
  have hrefine := calls_refine_sections calls schedule (by decide +kernel)
  rw [hturns] at hrefine
  exact ⟨hturns, hrefine.2⟩

/-- **No deleted method.** Whatever the threads add and remove, whenever the lock is free no
index holds a deleted method. -/
theorem calls_never_dangle (calls : ι → List Call) (schedule : List ι)
    (hfree : ((start calls).run schedule).locked = false) :
    let m := ((start calls).run schedule).data.codeCacheManager
    (∀ id addr p, m.entry id addr = some p → p < m.methods.length ∧ p ∉ m.deleted) ∧
      ∀ a p, m.getMethod a = some p → p < m.methods.length ∧ p ∉ m.deleted := by
  intro m
  obtain ⟨t, -, hvalid, hsame, -⟩ := exists_run_of_free hfree
  have halive := hvalid.alive
  refine ⟨fun id addr p hp => ?_, fun a p hp => ?_⟩
  · have hentry : t.caches.codeCacheManager.entry id addr = some p := by
      rw [← hp, CodeCacheManager.entry, CodeCacheManager.entry, ← hsame.lookup]
    obtain ⟨⟨m', hm', -, -⟩, hnot, -⟩ := halive.entry id addr p hentry
    rw [← hsame.methods] at hm'
    rw [← hsame.deleted] at hnot
    exact ⟨(List.getElem?_eq_some_iff.mp hm').1, hnot⟩
  · obtain ⟨r, hr, rfl⟩ := CodeCacheManager.exists_range_of_getMethod hp
    obtain ⟨⟨m', hm', -⟩, hnot⟩ := halive.range r (hsame.ranges ▸ hr)
    rw [← hsame.methods] at hm'
    rw [← hsame.deleted] at hnot
    exact ⟨(List.getElem?_eq_some_iff.mp hm').1, hnot⟩

/-- One thread loads a method and unloads it, while another loads one at the same address. -/
theorem calls_never_dangle_reload :
    let calls : Bool → List Call
      | true => [.addMethod 7 16 4096, .removeMethod 7 4096]
      | false => [.addMethod 8 16 4096]
    let schedule := List.replicate 9 true ++ List.replicate 9 false ++ List.replicate 14 true
    let m := ((start calls).run schedule).data.codeCacheManager
    m.deleted = [0] ∧ ∀ a p, m.getMethod a = some p → p < m.methods.length ∧ p ∉ m.deleted := by
  intro calls schedule m
  exact ⟨by decide +kernel, (calls_never_dangle calls schedule (by decide +kernel)).2⟩

/-- **The lock of the code cache.** In every state of every interleaving of calls, no two threads
are about to touch the caches, the assertion of `unsetLock` finds the lock taken, and the threads
can go on so that any of them get through all their calls, unless an assertion fails. -/
theorem calls_lock (calls : ι → List Call) (schedule : List ι) :
    let c := (start calls).run schedule
    (∀ i j, c.Accesses i → c.Accesses j → i = j) ∧
      (∀ i next, c.threads i = .isLocked next → c.locked = true) ∧
      ∀ is : List ι, ∃ more, (∃ i, (c.run more).threads i = .abort) ∨
        ∀ i ∈ is, ∃ answers, (c.run more).threads i = .done answers := by
  intro c
  obtain ⟨holder, howned, -⟩ := System.run_settles (owned_start calls) schedule
  exact ⟨fun i j => howned.accesses_unique, fun i next => howned.locked_of_isLocked,
    howned.exists_run_finishes⟩

end Refinement

end MethodCaches

end DroidPerf
