import DroidPerf.Lib.PathTree
import DroidPerf.ConverterSound

/-!
# DroidPerf.ContextTreeSound

The contexts of the converter are the call paths of the traces.

`Represents` relates `context_array` to a `PathTree` over frames. A call of `getContextId` is a
walk in that tree (`getContextId_refines`), so a context id stands for one call path as long as
the array lives, across lines, files and sections. `contextMsgs_spec` says what the messages of
a trace are.

The children of a context are filed under a text, so that frames are told apart by their keys
needs that method ids have no colon (`frameKey_injective`). Where a context is made, the array
and the tree grow by one entry each, in the same place (`Represents.addContext`); all other
facts about paths are those of the tree.
-/

namespace DroidPerf

open Text

/-- A frame of a trace: its method id and its line scope. -/
abbrev TraceFrame : Type := List Char × List Char

/-- The key of a frame among the children of a context. -/
def frameKey (frame : TraceFrame) : List Char := frame.1 ++ ':' :: frame.2

/-- Without a colon in the method id, the key determines the frame. -/
theorem frameKey_injective {frame frame' : TraceFrame} (h : ':' ∉ frame.1) (h' : ':' ∉ frame'.1)
    (hkey : frameKey frame = frameKey frame') : frame = frame' := by
  have hfirst := takeWhile_key h frame.2
  rw [show frame.1 ++ ':' :: frame.2 = frameKey frame from rfl, hkey, frameKey,
    takeWhile_key h' frame'.2] at hfirst
  rw [frameKey, frameKey, ← hfirst] at hkey
  have hsecond := List.append_cancel_left hkey
  exact Prod.ext hfirst.symm (List.cons.inj hsecond).2

/-- The contexts are the nodes of a tree of frames. -/
structure Represents (contexts : List Context) (T : PathTree TraceFrame) : Prop where
  length : contexts.length = T.nodes.length + 1
  id : ∀ (i : Nat) node, contexts[i]? = some node → node.id = i
  entry : ∀ (i p : Nat) frame, T.nodes[i]? = some (p, frame) → ':' ∉ frame.1 ∧
    ∃ node, contexts[i + 1]? = some node ∧ readInt frame.1 = some node.mid ∧
      readInt frame.2 = some node.lineNo
  children : ∀ (p : Nat) node, contexts[p]? = some node → ∀ key c, (key, c) ∈ node.children ↔
    ∃ i frame, c = i + 1 ∧ T.nodes[i]? = some (p, frame) ∧ key = frameKey frame

/-- The array with the root alone is the tree without nodes. -/
theorem represents_root : Represents rootContexts PathTree.root where
  length := rfl
  id i node h := by
    rw [rootContexts, List.getElem?_singleton] at h
    split at h
    · rename_i hzero
      cases h
      exact hzero.symm
    · cases h
  entry i p frame h := by simp [PathTree.root] at h
  children p node h key c := by
    rw [rootContexts] at h
    rw [List.mem_singleton.mp (List.mem_of_getElem? h)]
    simp [PathTree.root]

section Child

variable {contexts contexts' : List Context} {T : PathTree TraceFrame} {p c : Nat}
  {frame : TraceFrame}

/-- The array after a new context: its parent has one more child, and it is last. -/
theorem getElem?_addContext_eq {node : Context} (hnode : contexts[p]? = some node)
    (key : List Char) (new : Context) (i : Nat) :
    (addContext contexts p key new)[i]? =
      if i = p then some { node with children := (key, new.id) :: node.children }
      else if i = contexts.length then some new
      else contexts[i]? := by
  unfold addContext
  rw [Intern.getElem?_modify_concat hnode]

section Entries

variable {T' : PathTree TraceFrame} {node : Context} (h : Represents contexts T)
  (hnode : contexts[p]? = some node) (hT' : T'.nodes = T.nodes ++ [(p, frame)])
include h hnode hT'

/-- The nodes for the frames stay, and the new one is the last. -/
theorem Represents.entry_addContext (hframe : ':' ∉ frame.1) {new : Context}
    (hmid : readInt frame.1 = some new.mid) (hlineNo : readInt frame.2 = some new.lineNo)
    (key : List Char) {i q : Nat} {frame' : TraceFrame}
    (hentry : T'.nodes[i]? = some (q, frame')) : ':' ∉ frame'.1 ∧
      ∃ child, (addContext contexts p key new)[i + 1]? = some child ∧
        readInt frame'.1 = some child.mid ∧ readInt frame'.2 = some child.lineNo := by
  have hp := (List.getElem?_eq_some_iff.mp hnode).1
  have hsize := h.length
  rw [getElem?_addContext_eq hnode]
  rcases (PathTree.getElem?_added hT').mp hentry with hentry | ⟨rfl, heq⟩
  · obtain ⟨hcolon, child, hchild, hcmid, hcline⟩ := h.entry i q frame' hentry
    refine ⟨hcolon, ?_⟩
    -- the node for the frame may be the parent, which has changed
    split
    · rename_i hip
      rw [hip, hnode] at hchild
      cases hchild
      exact ⟨_, rfl, hcmid, hcline⟩
    · rw [if_neg (by have hi := (List.getElem?_eq_some_iff.mp hentry).1; omega)]
      exact ⟨child, hchild, hcmid, hcline⟩
  · cases heq
    refine ⟨hframe, ?_⟩
    rw [if_neg (by omega), if_pos hsize.symm]
    exact ⟨_, rfl, hmid, hlineNo⟩

/-- The children of a context are its children in the tree, also after the new one. -/
theorem Represents.children_addContext {new : Context} (hid : new.id = contexts.length)
    (hchildren : new.children = []) {q : Nat} {node' : Context}
    (hnode' : (addContext contexts p (frameKey frame) new)[q]? = some node') (key : List Char)
    (c : Nat) : (key, c) ∈ node'.children ↔
      ∃ i frame', c = i + 1 ∧ T'.nodes[i]? = some (q, frame') ∧ key = frameKey frame' := by
  have hsize := h.length
  rw [getElem?_addContext_eq hnode] at hnode'
  simp only [PathTree.getElem?_added hT']
  -- of the parent, of the new context, and of the others
  by_cases hqp : q = p
  · rw [if_pos hqp] at hnode'
    cases hnode'
    subst hqp
    rw [List.mem_cons, h.children q node hnode, Prod.mk.injEq, hid]
    constructor
    · rintro (⟨rfl, rfl⟩ | ⟨i, f, hi, hentry, hkey⟩)
      · exact ⟨T.nodes.length, frame, hsize, .inr ⟨rfl, rfl⟩, rfl⟩
      · exact ⟨i, f, hi, .inl hentry, hkey⟩
    · rintro ⟨i, f, hi, hentry | ⟨rfl, heq⟩, hkey⟩
      · exact .inr ⟨i, f, hi, hentry, hkey⟩
      · cases heq
        exact .inl ⟨hkey, hi.trans hsize.symm⟩
  · rw [if_neg hqp] at hnode'
    have hold : ∀ i f, (T.nodes[i]? = some (q, f) ∨ i = T.nodes.length ∧ (q, f) = (p, frame)) ↔
        T.nodes[i]? = some (q, f) := by simp [hqp]
    simp only [hold]
    split at hnode'
    · rename_i hlast
      cases hnode'
      rw [hchildren]
      simp only [List.not_mem_nil, false_iff]
      rintro ⟨i, f, -, hentry, -⟩
      have hparent := T.parent_lt hentry
      omega
    · exact h.children q node' hnode' key c

end Entries

/-- A new context is a new node. -/
theorem Represents.addContext (h : Represents contexts T) {node : Context}
    (hnode : contexts[p]? = some node) (hframe : ':' ∉ frame.1) {mid lineNo : Int}
    (hmid : readInt frame.1 = some mid) (hlineNo : readInt frame.2 = some lineNo)
    {T' : PathTree TraceFrame} (hT' : T'.nodes = T.nodes ++ [(p, frame)]) (pid : Nat) :
    Represents (addContext contexts p (frameKey frame) ⟨contexts.length, pid, mid, lineNo, []⟩)
      T' := by
  refine ⟨?_, fun i node' hnode' => ?_, fun i q frame' hentry => ?_, fun q node' hnode' => ?_⟩
  · rw [DroidPerf.addContext, List.length_modify, List.length_append, hT', List.length_append,
      h.length]
    rfl
  · rw [getElem?_addContext_eq hnode] at hnode'
    split at hnode'
    · rename_i hip
      cases hnode'
      rw [hip]
      exact h.id p node hnode
    · split at hnode'
      · rename_i hlast
        cases hnode'
        exact hlast.symm
      · exact h.id i node' hnode'
  · exact h.entry_addContext hnode hT' hframe hmid hlineNo (frameKey frame) hentry
  · exact h.children_addContext hnode hT' rfl rfl hnode'

/-- Going to the child of a context is going down in the tree. -/
theorem childContext_refines (h : Represents contexts T) (hframe : ':' ∉ frame.1)
    (hchild : childContext contexts p frame = some (c, contexts')) :
    ∃ T', Represents contexts' T' ∧ T.Down p frame c T' := by
  obtain ⟨node, hnode, ⟨hmem, rfl⟩ | ⟨hnone, mid, lineNo, hmid, hlineNo, rfl, rfl⟩⟩ :=
    childContext_cases hchild
  · obtain ⟨i, frame', rfl, hentry, hkey⟩ := (h.children p node hnode _ _).mp hmem
    obtain rfl := frameKey_injective hframe (h.entry i p frame' hentry).1 hkey
    exact ⟨T, h, .found hentry⟩
  · have hp : p ≤ T.nodes.length := by
      have hlt := (List.getElem?_eq_some_iff.mp hnode).1
      have hsize := h.length
      omega
    -- a node for the frame would have been found under its key
    have hnew : (p, frame) ∉ T.nodes := by
      intro hmem
      obtain ⟨i, hi⟩ := List.getElem?_of_mem hmem
      have hentry := (h.children p node hnode (frameKey frame) (i + 1)).mpr ⟨i, frame, rfl, hi, rfl⟩
      have hfalse := List.lookup_eq_none_iff.mp hnone _ hentry
      simp [frameKey] at hfalse
    refine ⟨T.add p frame hp hnew, h.addContext hnode hframe hmid hlineNo rfl _, ?_⟩
    rw [h.length]
    exact .added hp hnew rfl

/-- Going to a child succeeds if the texts of the frame are integers. -/
theorem exists_childContext (hp : p < contexts.length) {mid lineNo : Int}
    (hmid : readInt frame.1 = some mid) (hlineNo : readInt frame.2 = some lineNo) :
    ∃ r, childContext contexts p frame = some r := by
  have hnode : contexts[p]? = some contexts[p] := List.getElem?_eq_getElem hp
  unfold childContext
  simp only [hnode, Option.bind_eq_bind, Option.bind_some]
  split
  · exact ⟨_, rfl⟩
  · simp [hmid, hlineNo]

/-- A frame whose method id and line scope are numbers. -/
def FrameOk (frame : TraceFrame) : Prop :=
  ':' ∉ frame.1 ∧ (∃ mid, readInt frame.1 = some mid) ∧ ∃ lineNo, readInt frame.2 = some lineNo

/-- `getContextId` walks down the frames. -/
theorem getContextId_refines {frames : List TraceFrame} {contextId : Nat}
    (h : Represents contexts T) (hframes : ∀ frame ∈ frames, ':' ∉ frame.1)
    (hcall : getContextId contexts p frames = some (contextId, contexts')) :
    ∃ T', Represents contexts' T' ∧ T.Walk p frames contextId T' := by
  induction frames generalizing contexts T p with
  | nil => cases hcall
  | cons frame frames ih =>
      obtain ⟨hframe, hrest⟩ := List.forall_mem_cons.mp hframes
      obtain ⟨⟨c, contexts₁⟩, hchild, hcall⟩ := Option.bind_eq_some_iff.mp hcall
      obtain ⟨T₁, hT₁, hdown⟩ := childContext_refines h hframe hchild
      dsimp only at hcall
      split at hcall
      · rename_i hlast
        obtain ⟨node, hnode, hid⟩ := Option.bind_eq_some_iff.mp hcall
        cases hid
        rw [hT₁.id c node hnode, hlast]
        exact ⟨T₁, hT₁, .cons hdown .nil⟩
      · obtain ⟨T', hT', hwalk⟩ := ih hT₁ hrest hcall
        exact ⟨T', hT', .cons hdown hwalk⟩

/-- The child has a place in the array. -/
theorem down_lt (h' : Represents contexts' T) {T₀ : PathTree TraceFrame}
    (hdown : T₀.Down p frame c T) : c < contexts'.length := by
  rw [h'.length]
  cases hdown with
  | found hentry => exact Nat.succ_lt_succ (List.getElem?_eq_some_iff.mp hentry).1
  | added _ _ hnodes => rw [hnodes, List.length_append, List.length_singleton]; omega

/-- A call succeeds on a list of frames that is not empty, if their texts are integers. -/
theorem exists_getContextId {frames : List TraceFrame} (h : Represents contexts T) {p : Nat}
    (hp : p < contexts.length) (hframes : ∀ frame ∈ frames, FrameOk frame) (hne : frames ≠ []) :
    ∃ r, getContextId contexts p frames = some r := by
  induction frames generalizing contexts T p with
  | nil => exact absurd rfl hne
  | cons frame frames ih =>
      obtain ⟨⟨hcolon, ⟨mid, hmid⟩, lineNo, hlineNo⟩, hrest⟩ := List.forall_mem_cons.mp hframes
      obtain ⟨⟨c, contexts₁⟩, hchild⟩ := exists_childContext hp hmid hlineNo
      obtain ⟨T₁, hT₁, hdown⟩ := childContext_refines h hcolon hchild
      have hc := down_lt hT₁ hdown
      by_cases hlast : frames = []
      · simp [getContextId, hchild, hlast, List.getElem?_eq_getElem hc]
      · obtain ⟨r, hr⟩ := ih hT₁ hc hrest hlast
        exact ⟨r, by simp [getContextId, hchild, hlast, hr]⟩

end Child

/-- The contexts of any number of calls represent a tree. -/
theorem BuiltContexts.represents {contexts : List Context} (h : BuiltContexts contexts) :
    ∃ T, Represents contexts T := by
  induction h with
  | root => exact ⟨_, represents_root⟩
  | call _ hframes hcall ih =>
      obtain ⟨T, hT⟩ := ih
      obtain ⟨T', hT', -⟩ := getContextId_refines hT hframes hcall
      exact ⟨T', hT'⟩

/-! ### The messages of a trace

For each prefix of the trace a context is asked for, and shown with the method of its frame.
All but the last frame of a prefix are the prefix before it, so each round makes one context at
most. -/

section Messages

variable {leafInFull : Bool} {methodMap : Int → Option MethodInfo} {t : List TraceFrame}
  {contexts contexts' : List Context} {T T' : PathTree TraceFrame}

/-- What frame `i` of a trace is shown as: the leaf in full, where the section does so, and
otherwise only what follows the last bracket. -/
def frameShown (leafInFull : Bool) (methodMap : Int → Option MethodInfo) (t : List TraceFrame)
    (i : Nat) : Option (List Char × List Char × Int) := do
  let frame ← t[i]?
  let mid ← readInt frame.1
  let lineNo ← readInt frame.2
  let info ← methodMap mid
  let cut := fun s => if leafInFull ∧ i = t.length - 1 then s else afterLast ']' s
  return (cut info.filePath, cut info.name, lineNo)

/-- The message for frame `i` of a trace: its id stands for the call path up to there. -/
structure MsgOf (leafInFull : Bool) (methodMap : Int → Option MethodInfo) (t : List TraceFrame)
    (T : PathTree TraceFrame) (i : Nat) (msg : ContextMsg) : Prop where
  path : T.HasPath msg.contextId (t.take (i + 1))
  shown : frameShown leafInFull methodMap t i = some (msg.filePath, msg.name, msg.lineNo)
  startLine : msg.startLine = msg.lineNo

/-- A node shows the frame it was made for. -/
theorem Represents.node (h : Represents contexts T) {n : Nat} {frames : List TraceFrame}
    {frame : TraceFrame} (hpath : T.HasPath n (frames ++ [frame])) :
    ∃ node, contexts[n]? = some node ∧ readInt frame.1 = some node.mid ∧
      readInt frame.2 = some node.lineNo := by
  generalize hks : frames ++ [frame] = ks at hpath
  cases hpath with
  | root => exact absurd hks (List.append_ne_nil_of_right_ne_nil _ (by simp))
  | child hentry _ =>
      obtain ⟨rfl, hframe⟩ := List.append_inj' hks rfl
      cases hframe
      exact (h.entry _ _ _ hentry).2

/-- The body of the loop over the frames of a trace. -/
theorem addContextMsg_spec (h : Represents contexts T) (hframes : ∀ frame ∈ t, FrameOk frame)
    {i : Nat} (hi : i < t.length) (hshown : (frameShown leafInFull methodMap t i).isSome = true)
    (hprev : T.IsPath (t.take i)) (msgs : List ContextMsg) :
    ∃ msg contexts' T', addContextMsg leafInFull methodMap t (msgs, contexts) i =
        some (msgs ++ [msg], contexts') ∧ Represents contexts' T' ∧ T.nodes <+: T'.nodes ∧
      T'.nodes.length ≤ T.nodes.length + 1 ∧ MsgOf leafInFull methodMap t T' i msg := by
  have htake : t.take (i + 1) = t.take i ++ [t[i]] := by simp
  obtain ⟨⟨contextId, contexts'⟩, hcall⟩ := exists_getContextId h
    (by rw [h.length]; exact Nat.succ_pos _)
    (fun frame hframe => hframes frame (List.mem_of_mem_take hframe))
    (by rw [htake]; exact List.append_ne_nil_of_right_ne_nil _ (by simp))
  obtain ⟨T', hT', hwalk⟩ := getContextId_refines h
    (fun frame hframe => (hframes frame (List.mem_of_mem_take hframe)).1) hcall
  have hpath : T'.HasPath contextId (t.take (i + 1)) := hwalk.hasPath .root
  obtain ⟨node, hnode, hmid, hlineNo⟩ := hT'.node (htake ▸ hpath)
  have hlen : T'.nodes.length ≤ T.nodes.length + 1 := by
    -- the walk to the last frame is on a path of the tree
    obtain ⟨c, T₁, hfirst, hlast⟩ := (htake ▸ hwalk : T.Walk 0 (t.take i ++ [t[i]]) _ _).split
    have hsame := hfirst.nodes_eq .root fun r hr => hprev.of_isPrefix hr
    rw [← hsame]
    exact hlast.length_le
  -- the method is known, so there is a message
  obtain ⟨s, hs⟩ := Option.isSome_iff_exists.mp hshown
  have hs' := hs
  simp only [frameShown, List.getElem?_eq_getElem hi, hmid, hlineNo, Option.bind_eq_bind,
    Option.bind_some, Option.bind_eq_some_iff, Option.pure_def, Option.some.injEq] at hs
  obtain ⟨info, hinfo, rfl⟩ := hs
  refine ⟨contextMsg (leafInFull ∧ i = t.length - 1) contextId node info, contexts', T', ?_, hT',
    hwalk.isPrefix, hlen, hpath, ?_, rfl⟩
  · simp [addContextMsg, hcall, hnode, hinfo]
  · rw [hs']
    simp [contextMsg]

/-- The messages of a trace are those of its frames, in order. -/
structure MsgsOf (leafInFull : Bool) (methodMap : Int → Option MethodInfo) (t : List TraceFrame)
    (T : PathTree TraceFrame) (msgs : List ContextMsg) : Prop where
  length : msgs.length = t.length
  msg : ∀ (i : Nat) msg, msgs[i]? = some msg → MsgOf leafInFull methodMap t T i msg

/-- A message stays right as the tree grows. -/
theorem MsgOf.mono {i : Nat} {msg : ContextMsg} (h : MsgOf leafInFull methodMap t T i msg)
    (hpre : T.nodes <+: T'.nodes) : MsgOf leafInFull methodMap t T' i msg :=
  { h with path := h.path.mono hpre }

/-- The messages of a trace stay right when the tree grows. -/
theorem MsgsOf.mono {msgs : List ContextMsg} (h : MsgsOf leafInFull methodMap t T msgs)
    (hpre : T.nodes <+: T'.nodes) : MsgsOf leafInFull methodMap t T' msgs :=
  ⟨h.length, fun i msg hmsg => (h.msg i msg hmsg).mono hpre⟩

/-- The messages of a trace: each frame has one, with the id of the call path up to it. -/
theorem contextMsgs_spec (h : Represents contexts T) (hframes : ∀ frame ∈ t, FrameOk frame)
    (hshown : ∀ i < t.length, (frameShown leafInFull methodMap t i).isSome = true) :
    ∃ msgs contexts' T', contextMsgs leafInFull methodMap t contexts = some (msgs, contexts') ∧
      Represents contexts' T' ∧ T.nodes <+: T'.nodes ∧
      T'.nodes.length ≤ T.nodes.length + t.length ∧ MsgsOf leafInFull methodMap t T' msgs := by
  suffices hall : ∀ n ≤ t.length, ∃ msgs contexts' T', (List.range n).foldlM
      (addContextMsg leafInFull methodMap t) ([], contexts) = some (msgs, contexts') ∧
      Represents contexts' T' ∧ T.nodes <+: T'.nodes ∧ T'.nodes.length ≤ T.nodes.length + n ∧
      msgs.length = n ∧
      ∀ (i : Nat) msg, msgs[i]? = some msg → MsgOf leafInFull methodMap t T' i msg by
    obtain ⟨msgs, contexts', T', hfold, hT', hpre, hlen, hlength, hmsg⟩ := hall _ (Nat.le_refl _)
    exact ⟨msgs, contexts', T', hfold, hT', hpre, hlen, hlength, hmsg⟩
  intro n hn
  induction n with
  | zero => exact ⟨[], contexts, T, rfl, h, List.prefix_refl _, Nat.le_refl _, rfl, by simp⟩
  | succ n ih =>
      obtain ⟨msgs, contexts₁, T₁, hfold, hT₁, hpre₁, hlen₁, hlength, hmsgs⟩ := ih (by omega)
      -- the call path before was that of the round before
      have hprev : T₁.IsPath (t.take n) := by
        cases n with
        | zero => exact PathTree.isPath_nil _
        | succ m =>
            have hlast : msgs[m]? = some msgs[m] := List.getElem?_eq_getElem (by omega)
            exact ⟨_, (hmsgs m _ hlast).path⟩
      obtain ⟨msg, contexts', T', hadd, hT', hpre, hlen, hmsg⟩ :=
        addContextMsg_spec hT₁ hframes hn (hshown n hn) hprev msgs
      refine ⟨msgs ++ [msg], contexts', T', ?_, hT', hpre₁.trans hpre, by omega, by simp [hlength],
        fun i m hm => ?_⟩
      · rw [List.range_succ, List.foldlM_append, hfold]
        simp [hadd]
      · rcases Intern.getElem?_concat.mp hm with hm | ⟨rfl, rfl⟩
        · exact (hmsgs i m hm).mono hpre
        · rw [hlength]
          exact hmsg

end Messages

end DroidPerf
