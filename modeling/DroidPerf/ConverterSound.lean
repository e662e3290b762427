import DroidPerf.Converter

/-!
# DroidPerf.ConverterSound

The converter's context tree and its messages.

A node of the tree is filed under a key that begins with its method id (`ContextsOk`), so the
node that `getContextId` returns has the method id of the last frame. If all methods of a trace
are known, no frame is left out of the messages (`contextMsgs_complete`).

The invariant is kept by adding a child (`childContext_ok`), hence by a call, which adds one
child after another, and by any sequence of calls from the root on (`BuiltContexts.ok`).
-/

namespace DroidPerf

open Text

/-- Every child has the index and the method id it is filed under. -/
def ContextsOk (contexts : List Context) : Prop :=
  ∀ node ∈ contexts, ∀ entry ∈ node.children, ∃ child, contexts[entry.2]? = some child ∧
    child.id = entry.2 ∧ readInt (entry.1.takeWhile fun c => c ≠ ':') = some child.mid

/-- The root has no children. -/
theorem contextsOk_root : ContextsOk rootContexts := by
  intro node hnode entry hentry
  rw [List.mem_singleton.mp hnode] at hentry
  cases hentry

/-- The method id is read back from the key. -/
theorem takeWhile_key {id : List Char} (hid : ':' ∉ id) (scope : List Char) :
    (id ++ ':' :: scope).takeWhile (fun c => c ≠ ':') = id := by
  rw [List.takeWhile_append_of_pos]
  · simp
  · intro c hc
    simpa using fun h : c = ':' => hid (h ▸ hc)

section Child

variable {contexts contexts' : List Context} {parent child : Nat} {frame : List Char × List Char}

/-- The two ways in which `getContextId` goes down to a child. -/
theorem childContext_cases (h : childContext contexts parent frame = some (child, contexts')) :
    ∃ node, contexts[parent]? = some node ∧
      ((frame.1 ++ ':' :: frame.2, child) ∈ node.children ∧ contexts' = contexts ∨
        node.children.lookup (frame.1 ++ ':' :: frame.2) = none ∧
          ∃ mid lineNo, readInt frame.1 = some mid ∧ readInt frame.2 = some lineNo ∧
            child = contexts.length ∧ contexts' = addContext contexts parent
              (frame.1 ++ ':' :: frame.2) ⟨child, node.id, mid, lineNo, []⟩) := by
  unfold childContext at h
  cases hnode : contexts[parent]? with
  | none => simp [hnode] at h
  | some node =>
      refine ⟨node, rfl, ?_⟩
      cases hlookup : node.children.lookup (frame.1 ++ ':' :: frame.2) with
      | some c =>
          -- the child was there
          left
          simp only [hnode, hlookup, Option.bind_eq_bind, Option.bind_some, Option.pure_def,
            Option.some.injEq, Prod.mk.injEq] at h
          obtain ⟨rfl, rfl⟩ := h
          obtain ⟨before, after, hchildren, -⟩ := List.lookup_eq_some_iff.mp hlookup
          rw [hchildren]
          exact ⟨List.mem_append_right _ List.mem_cons_self, rfl⟩
      | none =>
          -- a new one is made
          right
          simp only [hnode, hlookup, Option.bind_eq_bind, Option.bind_some, Option.pure_def,
            Option.bind_eq_some_iff, Option.some.injEq, Prod.mk.injEq] at h
          obtain ⟨mid, hmid, lineNo, hlineNo, rfl, rfl⟩ := h
          exact ⟨rfl, mid, lineNo, hmid, hlineNo, rfl, rfl⟩

/-- A new context changes nothing that the others say about themselves. -/
theorem getElem?_addContext {new node : Context} {i : Nat} (parent : Nat) (key : List Char)
    (h : (contexts ++ [new])[i]? = some node) :
    ∃ node', (addContext contexts parent key new)[i]? = some node' ∧
      node'.id = node.id ∧ node'.mid = node.mid := by
  unfold addContext
  rw [List.getElem?_modify, h]
  refine ⟨_, rfl, ?_⟩
  by_cases hparent : parent = i
  · simp [hparent]
  · simp [hparent]

/-- An entry was there before, or it is the one of the new context. -/
theorem mem_children_addContext {new other : Context} {key : List Char} {entry : List Char × Nat}
    (hnew : new.children = []) (hother : other ∈ addContext contexts parent key new)
    (hentry : entry ∈ other.children) :
    (∃ old ∈ contexts, entry ∈ old.children) ∨ entry = (key, new.id) := by
  obtain ⟨i, hi⟩ := List.getElem?_of_mem hother
  unfold addContext at hi
  rw [List.getElem?_modify] at hi
  obtain ⟨old, hold, rfl⟩ := Option.map_eq_some_iff.mp hi
  have hmem : entry ∈ old.children ∨ entry = (key, new.id) := by
    split at hentry
    · exact (List.mem_cons.mp hentry).symm
    · exact .inl hentry
  rcases hmem with hmem | hmem
  · rcases List.mem_append.mp (List.mem_of_getElem? hold) with hold | hold
    · exact .inl ⟨old, hold, hmem⟩
    · rw [List.mem_singleton.mp hold, hnew] at hmem
      cases hmem
  · exact .inr hmem

/-- The child has the method of the frame, whether it was there or is new. -/
theorem childContext_ok (hok : ContextsOk contexts) (hframe : ':' ∉ frame.1)
    (h : childContext contexts parent frame = some (child, contexts')) :
    ContextsOk contexts' ∧ ∃ node, contexts'[child]? = some node ∧ node.id = child ∧
      readInt frame.1 = some node.mid := by
  obtain ⟨node, hnode, ⟨hmem, rfl⟩ | ⟨-, mid, lineNo, hmid, -, rfl, rfl⟩⟩ := childContext_cases h
  · obtain ⟨found, hfound, hid, hkey⟩ := hok node (List.mem_of_getElem? hnode) _ hmem
    rw [takeWhile_key hframe] at hkey
    exact ⟨hok, found, hfound, hid, hkey⟩
  · have hlast : (contexts ++ [Context.mk contexts.length node.id mid lineNo []])[contexts.length]? =
        some (.mk contexts.length node.id mid lineNo []) := by simp
    obtain ⟨new, hnew, hid, hmid'⟩ := getElem?_addContext parent
      (frame.1 ++ ':' :: frame.2) hlast
    refine ⟨?_, new, hnew, hid, by rw [hmid, hmid']⟩
    intro other hother entry hentry
    -- an entry that was there, or that of the new context
    rcases mem_children_addContext rfl hother hentry with ⟨old, hold, hentry⟩ | rfl
    · obtain ⟨found, hfound, hfid, hkey⟩ := hok old hold entry hentry
      have hbefore : (contexts ++ [Context.mk contexts.length node.id mid lineNo []])[entry.2]? =
          some found := by
        rw [List.getElem?_append_left (List.getElem?_eq_some_iff.mp hfound).1]
        exact hfound
      obtain ⟨found', hget, hid', hmid''⟩ := getElem?_addContext parent
        (frame.1 ++ ':' :: frame.2) hbefore
      exact ⟨found', hget, hid'.trans hfid, by rw [hkey, hmid'']⟩
    · refine ⟨new, hnew, hid, ?_⟩
      rw [takeWhile_key hframe, hmid, hmid']

/-- The context of a call path has the method of its last frame. -/
theorem getContextId_ok {frames : List (List Char × List Char)} {contextId : Nat}
    (hok : ContextsOk contexts) (hframes : ∀ frame ∈ frames, ':' ∉ frame.1)
    (h : getContextId contexts parent frames = some (contextId, contexts')) :
    ContextsOk contexts' ∧ ∃ node last, contexts'[contextId]? = some node ∧
      frames.getLast? = some last ∧ readInt last.1 = some node.mid := by
  induction frames generalizing contexts parent with
  | nil => cases h
  | cons frame frames ih =>
      obtain ⟨hframe, hrest⟩ := List.forall_mem_cons.mp hframes
      obtain ⟨⟨child, contexts₁⟩, hchild, h⟩ := Option.bind_eq_some_iff.mp h
      obtain ⟨hok₁, node, hnode, hid, hmid⟩ := childContext_ok hok hframe hchild
      dsimp only at h
      split at h
      · rename_i hlast
        rw [hnode] at h
        cases h
        exact ⟨hok₁, node, frame, hid ▸ hnode, by rw [hlast]; rfl, hmid⟩
      · rename_i hmore
        obtain ⟨hok', node', last, hnode', hlast, hmid'⟩ := ih hok₁ hrest h
        exact ⟨hok', node', last, hnode', by rw [List.getLast?_cons, hlast]; rfl, hmid'⟩

end Child

/-- The context trees that calls of `getContextId` build. -/
inductive BuiltContexts : List Context → Prop
  | root : BuiltContexts rootContexts
  | call {contexts contexts' : List Context} {frames : List (List Char × List Char)}
      {contextId : Nat} : BuiltContexts contexts → (∀ frame ∈ frames, ':' ∉ frame.1) →
      getContextId contexts 0 frames = some (contextId, contexts') → BuiltContexts contexts'

/-- All trees that the converter builds are in order. -/
theorem BuiltContexts.ok {contexts : List Context} (h : BuiltContexts contexts) :
    ContextsOk contexts := by
  induction h with
  | root => exact contextsOk_root
  | call _ hframes hcall ih => exact (getContextId_ok ih hframes hcall).1

/-- If every method of a trace is known, every frame gets its message. -/
theorem contextMsgs_complete {leafInFull : Bool} {methodMap : Int → Option MethodInfo}
    {t : List (List Char × List Char)} {contexts contexts' : List Context}
    {contextMsgList : List ContextMsg} (hok : ContextsOk contexts)
    (hframes : ∀ frame ∈ t, ':' ∉ frame.1)
    (hknown : ∀ frame ∈ t, ∃ mid, readInt frame.1 = some mid ∧ methodMap mid ≠ none)
    (h : contextMsgs leafInFull methodMap t contexts = some (contextMsgList, contexts')) :
    contextMsgList.length = t.length ∧ ContextsOk contexts' := by
  suffices hall : ∀ n contextMsgList contexts', (List.range n).foldlM
      (addContextMsg leafInFull methodMap t) ([], contexts) = some (contextMsgList, contexts') →
      contextMsgList.length = n ∧ ContextsOk contexts' from hall _ _ _ h
  intro n
  induction n with
  | zero =>
      intro contextMsgList contexts' h
      cases h
      exact ⟨rfl, hok⟩
  | succ n ih =>
      intro contextMsgList contexts' h
      rw [List.range_succ, List.foldlM_append] at h
      obtain ⟨⟨msgs, contexts₁⟩, hbefore, h⟩ := Option.bind_eq_some_iff.mp h
      rw [List.foldlM_cons] at h
      obtain ⟨⟨msgs', contexts₂⟩, hadd, h⟩ := Option.bind_eq_some_iff.mp h
      cases h
      obtain ⟨hlen, hok₁⟩ := ih msgs contexts₁ hbefore
      obtain ⟨⟨contextId, contexts₃⟩, hid, hadd⟩ := Option.bind_eq_some_iff.mp hadd
      obtain ⟨hok₂, node, last, hnode, hlast, hmid⟩ :=
        getContextId_ok hok₁ (fun frame hframe => hframes frame (List.mem_of_mem_take hframe)) hid
      -- the context of this prefix has the method of its last frame, which is known
      have hmem : last ∈ t := List.mem_of_mem_take (List.mem_of_getLast? hlast)
      obtain ⟨mid, hmid', hinfo⟩ := hknown last hmem
      rw [hmid] at hmid'
      cases hmid'
      obtain ⟨info, hinfo⟩ := Option.ne_none_iff_exists'.mp hinfo
      simp only [hnode, Option.bind_eq_bind, Option.bind_some, hinfo, Option.pure_def,
        Option.some.injEq, Prod.mk.injEq] at hadd
      obtain ⟨rfl, rfl⟩ := hadd
      exact ⟨by rw [List.length_append, hlen]; rfl, hok₂⟩

end DroidPerf
