import DroidPerf.Lib.Run
import DroidPerf.ContextTreeSound

/-!
# DroidPerf.ContextIdsSound

Runs of `getContextId` from `context_root`.

The ids are positions in `context_array`, a context is made after its parent, and an id stands
for one list of frames: following `pid` from it reads the frames back (`run_contextStep`). The
tree behind the array (`Represents`) says nothing about `pid`, so `PidsOk` goes along with it.

One call refines a walk in the tree (`contextStep_refines`), so a run of calls refines a run of
walks, by the rule for refinements of runs. In the tree of the last state every id has the path
it was returned for (`hasPath_of_specRun`), and `followsPid` reads such a path back from the
array.
-/

namespace DroidPerf

open Text

/-- A call of `getContextId` for the root. -/
def contextStep (contexts : List Context) (frames : List TraceFrame) :
    Option (List Context × Nat) :=
  (getContextId contexts 0 frames).map Prod.swap

/-- `int(frame[0])` and `int(frame[1])`. -/
def frameInts (frame : TraceFrame) : Option (Int × Int) := do
  let mid ← readInt frame.1
  let lineNo ← readInt frame.2
  return (mid, lineNo)

/-- The method ids and lines on the way along `pid` to the root. -/
inductive FollowsPid (contexts : List Context) : Nat → List (Int × Int) → Prop
  | root : FollowsPid contexts 0 []
  | step {contextId : Nat} {node : Context} {rest : List (Int × Int)} :
      contextId ≠ 0 → contexts[contextId]? = some node → FollowsPid contexts node.pid rest →
      FollowsPid contexts contextId ((node.mid, node.lineNo) :: rest)

/-! ### Parents

`pid` is written when a context is made and never again. The children of a context are entries
with a key and a position, and each of them has the context as its `pid`. -/

/-- Every child has its parent as `pid`. -/
def PidsOk (contexts : List Context) : Prop :=
  ∀ (p : Nat) node, contexts[p]? = some node → ∀ entry ∈ node.children,
    ∃ child, contexts[entry.2]? = some child ∧ child.pid = p

/-- The root has no children. -/
theorem pidsOk_root : PidsOk rootContexts := by
  intro p node hnode entry hentry
  rw [List.mem_singleton.mp (List.mem_of_getElem? hnode)] at hentry
  cases hentry

section Child

variable {contexts contexts' : List Context} {T : PathTree TraceFrame} {p c : Nat}
  {frame : TraceFrame}

/-- A new context keeps the others where they are, with their `pid`. -/
theorem pid_addContext {node : Context} (hnode : contexts[p]? = some node) (key : List Char)
    (new : Context) {child : Context} {i : Nat} (hchild : contexts[i]? = some child) :
    ∃ child', (addContext contexts p key new)[i]? = some child' ∧ child'.pid = child.pid := by
  have hi := (List.getElem?_eq_some_iff.mp hchild).1
  rw [getElem?_addContext_eq hnode]
  split
  · rename_i hip
    rw [hip, hnode] at hchild
    cases hchild
    exact ⟨_, rfl, rfl⟩
  · rw [if_neg (by omega)]
    exact ⟨child, hchild, rfl⟩

/-- A new child has its parent as `pid`. -/
theorem PidsOk.addContext (h : PidsOk contexts) {node : Context} (hnode : contexts[p]? = some node)
    {key : List Char} {new : Context} (hid : new.id = contexts.length) (hpid : new.pid = p)
    (hchildren : new.children = []) : PidsOk (addContext contexts p key new) := by
  have hp := (List.getElem?_eq_some_iff.mp hnode).1
  have hnew : (DroidPerf.addContext contexts p key new)[contexts.length]? = some new := by
    rw [getElem?_addContext_eq hnode, if_neg (by omega), if_pos rfl]
  have hold : ∀ (q : Nat) other, contexts[q]? = some other → ∀ entry ∈ other.children,
      ∃ child, (DroidPerf.addContext contexts p key new)[entry.2]? = some child ∧
        child.pid = q := by
    intro q other hother entry hentry
    obtain ⟨child, hchild, hq⟩ := h q other hother entry hentry
    obtain ⟨child', hchild', hpid'⟩ := pid_addContext hnode key new hchild
    exact ⟨child', hchild', hpid'.trans hq⟩
  intro q other hother entry hentry
  rw [getElem?_addContext_eq hnode] at hother
  split at hother
  · rename_i hqp
    subst hqp
    cases hother
    -- the new entry, or one that was there
    rcases List.mem_cons.mp hentry with rfl | hentry
    · exact ⟨new, hid ▸ hnew, hpid⟩
    · exact hold q node hnode entry hentry
  · split at hother
    · cases hother
      rw [hchildren] at hentry
      cases hentry
    · exact hold q other hother entry hentry

/-- The child of a frame is found or made. -/
theorem PidsOk.childContext (h : PidsOk contexts) (hT : Represents contexts T)
    (hchild : childContext contexts p frame = some (c, contexts')) : PidsOk contexts' := by
  obtain ⟨node, hnode, ⟨-, rfl⟩ | ⟨-, mid, lineNo, -, -, rfl, rfl⟩⟩ := childContext_cases hchild
  · exact h
  · exact h.addContext hnode rfl (hT.id p node hnode) rfl

/-- The calls for all frames of a call path keep the parent ids in order. -/
theorem PidsOk.getContextId {frames : List TraceFrame} {contextId : Nat} (h : PidsOk contexts)
    (hT : Represents contexts T) (hframes : ∀ frame ∈ frames, ':' ∉ frame.1)
    (hcall : getContextId contexts p frames = some (contextId, contexts')) : PidsOk contexts' := by
  induction frames generalizing contexts T p with
  | nil => cases hcall
  | cons frame frames ih =>
      obtain ⟨hframe, hrest⟩ := List.forall_mem_cons.mp hframes
      obtain ⟨⟨c, contexts₁⟩, hchild, hcall⟩ := Option.bind_eq_some_iff.mp hcall
      obtain ⟨T₁, hT₁, -⟩ := childContext_refines hT hframe hchild
      have hpids := h.childContext hT hchild
      dsimp only at hcall
      split at hcall
      · obtain ⟨node, -, hid⟩ := Option.bind_eq_some_iff.mp hcall
        cases hid
        exact hpids
      · exact ih hpids hT₁ hrest hcall

/-- A context, its parent and its frame. -/
theorem Represents.pid (h : Represents contexts T) (hpids : PidsOk contexts) {i : Nat}
    (hentry : T.nodes[i]? = some (p, frame)) :
    ∃ node, contexts[i + 1]? = some node ∧ node.pid = p ∧
      frameInts frame = some (node.mid, node.lineNo) := by
  obtain ⟨-, node, hnode, hmid, hlineNo⟩ := h.entry i p frame hentry
  have hp : p < contexts.length := by
    have hlt := T.parent_lt hentry
    rw [h.length]
    omega
  have hparent : contexts[p]? = some contexts[p] := List.getElem?_eq_getElem hp
  have hmem := (h.children p _ hparent (frameKey frame) (i + 1)).mpr ⟨i, frame, rfl, hentry, rfl⟩
  obtain ⟨child, hchild, hpid⟩ := hpids p _ hparent _ hmem
  rw [hnode] at hchild
  cases hchild
  refine ⟨node, hnode, hpid, ?_⟩
  rw [frameInts, hmid, hlineNo]
  rfl

/-- A parent is made before its children. -/
theorem Represents.pid_lt (h : Represents contexts T) (hpids : PidsOk contexts) {k : Nat}
    {node : Context} (hnode : contexts[k]? = some node) (hk : k ≠ 0) : node.pid < k := by
  obtain ⟨i, rfl⟩ := Nat.exists_eq_succ_of_ne_zero hk
  have hi : i < T.nodes.length := by
    have hlt := (List.getElem?_eq_some_iff.mp hnode).1
    rw [h.length] at hlt
    exact Nat.lt_of_succ_lt_succ hlt
  have hentry : T.nodes[i]? = some T.nodes[i] := List.getElem?_eq_getElem hi
  obtain ⟨node', hnode', hpid, -⟩ := h.pid hpids (p := T.nodes[i].1) hentry
  rw [hnode] at hnode'
  cases hnode'
  rw [hpid]
  exact Nat.lt_succ_of_le (T.parent_le i _ hentry)

/-- Along `pid` the frames of a path come in reverse. -/
theorem Represents.followsPid (h : Represents contexts T) (hpids : PidsOk contexts) {n : Nat}
    {frames : List TraceFrame} (hpath : T.HasPath n frames) :
    ∃ pairs : List (Int × Int), frames.map frameInts = pairs.map some ∧
      FollowsPid contexts n pairs.reverse := by
  induction hpath with
  | root => exact ⟨[], rfl, .root⟩
  | @child i p frame frames hentry _ ih =>
      obtain ⟨pairs, hpairs, hfollows⟩ := ih
      obtain ⟨node, hnode, rfl, hints⟩ := h.pid hpids hentry
      refine ⟨pairs ++ [(node.mid, node.lineNo)], ?_, ?_⟩
      · rw [List.map_append, List.map_append, hpairs, List.map_singleton, hints]
        rfl
      · rw [List.reverse_append]
        exact .step (Nat.succ_ne_zero i) hnode hfollows

end Child

/-! ### Runs

The statement about runs is a structure, `IdsOf`, with a field for each of its parts. -/

/-- What is said of calls, the ids they returned and the contexts after them. -/
structure IdsOf (calls : List (List TraceFrame)) (ids : List Nat) (contexts : List Context) :
    Prop where
  length : ids.length = calls.length
  /-- An id is a position. -/
  id : ∀ (k : Nat) node, contexts[k]? = some node → node.id = k
  /-- A parent is older. -/
  pid : ∀ (k : Nat) node, contexts[k]? = some node → k ≠ 0 → node.pid < k
  /-- The ids of two calls are the same exactly when their frames are. -/
  same : ∀ call ∈ calls.zip ids, ∀ call' ∈ calls.zip ids, call.2 = call'.2 ↔ call.1 = call'.1
  /-- Along `pid` the frames are read back. -/
  readBack : ∀ call ∈ calls.zip ids, ∃ pairs : List (Int × Int),
    call.1.map frameInts = pairs.map some ∧
    FollowsPid contexts call.2 pairs.reverse
  /-- The frames without the last one have the parent's id. -/
  parent : ∀ call ∈ calls.zip ids, ∀ call' ∈ calls.zip ids, ∀ frame,
    call'.1 = call.1 ++ [frame] → ∃ node, contexts[call'.2]? = some node ∧ node.pid = call.2

/-- A call in the tree: a walk from the root. -/
def WalkStep (T : PathTree TraceFrame) (frames : List TraceFrame) (contextId : Nat)
    (T' : PathTree TraceFrame) : Prop := T.Walk 0 frames contextId T'

/-- A call walks down its frames. -/
theorem contextStep_refines (contexts : List Context) (T : PathTree TraceFrame)
    (frames : List TraceFrame) (h : Represents contexts T ∧ PidsOk contexts)
    (hframes : frames ≠ [] ∧ ∀ frame ∈ frames, FrameOk frame) :
    ∃ contexts' contextId T', contextStep contexts frames = some (contexts', contextId) ∧
      WalkStep T frames contextId T' ∧ Represents contexts' T' ∧ PidsOk contexts' := by
  obtain ⟨hT, hpids⟩ := h
  have hcolon : ∀ frame ∈ frames, ':' ∉ frame.1 := fun frame hframe => (hframes.2 frame hframe).1
  obtain ⟨⟨contextId, contexts'⟩, hcall⟩ := exists_getContextId hT
    (by rw [hT.length]; exact Nat.succ_pos _) hframes.2 hframes.1
  obtain ⟨T', hT', hwalk⟩ := getContextId_refines hT hcolon hcall
  refine ⟨contexts', contextId, T', ?_, hwalk, hT', hpids.getContextId hT hcolon hcall⟩
  rw [contextStep, hcall]
  rfl

/-- The frames of the calls are the paths of their ids in the end. -/
theorem hasPath_of_specRun {T T' : PathTree TraceFrame} {calls : List (List TraceFrame)}
    {ids : List Nat} (h : Run.SpecRun WalkStep T calls ids T') :
    List.Forall₂ (fun frames contextId => T'.HasPath contextId frames) calls ids := by
  refine (h.answers (I := fun _ => True) (A := fun T frames contextId =>
    T.HasPath contextId frames) (fun T frames contextId T' _ hwalk => ?_) trivial).2.2
  exact ⟨trivial, PathTree.Walk.hasPath hwalk .root,
    fun _ _ hpath => hpath.mono (PathTree.Walk.isPrefix hwalk)⟩

/-- The texts of a frame are integers. -/
def IntFrame (frame : TraceFrame) : Prop := (frameInts frame).isSome = true

instance (frame : TraceFrame) : Decidable (IntFrame frame) :=
  inferInstanceAs (Decidable (_ = true))

/-- Text that is an integer has no colon. -/
theorem IntFrame.frameOk {frame : TraceFrame} (h : IntFrame frame) : FrameOk frame := by
  obtain ⟨pair, hpair⟩ := Option.isSome_iff_exists.mp h
  obtain ⟨mid, hmid, hpair⟩ := Option.bind_eq_some_iff.mp hpair
  obtain ⟨lineNo, hlineNo, -⟩ := Option.bind_eq_some_iff.mp hpair
  exact ⟨notMem_of_readInt hmid (by decide) (by decide) (by decide), ⟨mid, hmid⟩, lineNo, hlineNo⟩

/-- **Context ids.** Over every sequence of calls with non-empty lists of frames whose texts
are integers, all calls return, and the ids and contexts are as they should be. -/
theorem run_contextStep (calls : List (List TraceFrame))
    (h : ∀ frames ∈ calls, frames ≠ [] ∧ ∀ frame ∈ frames, IntFrame frame) :
    ∃ contexts ids, Run.run contextStep rootContexts calls = some (contexts, ids) ∧
      IdsOf calls ids contexts := by
  have hcalls : Run.Admitted contextStep
      (fun _ frames => frames ≠ [] ∧ ∀ frame ∈ frames, FrameOk frame) rootContexts calls :=
    Run.admitted_of_forall fun frames hframes =>
      ⟨(h frames hframes).1, fun frame hframe => ((h frames hframes).2 frame hframe).frameOk⟩
  obtain ⟨contexts, ids, T, hrun, hwalks, hT, hpids⟩ :=
    Run.run_refines_of_admitted contextStep_refines calls rootContexts PathTree.root
      ⟨represents_root, pidsOk_root⟩ hcalls
  obtain ⟨hlength, hpaths⟩ := List.forall₂_iff_zip.mp (hasPath_of_specRun hwalks)
  refine ⟨contexts, ids, hrun, hlength.symm, hT.id, fun k node => hT.pid_lt hpids, ?_, ?_, ?_⟩
  · intro call hcall call' hcall'
    have hpath := hpaths hcall
    have hpath' := hpaths hcall'
    constructor
    · intro hid
      exact hpath.unique (hid ▸ hpath')
    · intro hframes
      exact hpath.inj (hframes ▸ hpath')
  · intro call hcall
    exact hT.followsPid hpids (hpaths hcall)
  · intro call hcall call' hcall' frame hframes
    obtain ⟨i, p, hid, hentry, hparent⟩ := (hframes ▸ hpaths hcall' :
      T.HasPath call'.2 (call.1 ++ [frame])).last
    obtain ⟨node, hnode, hpid, -⟩ := hT.pid hpids hentry
    exact ⟨node, hid ▸ hnode, hpid.trans (hparent.inj (hpaths hcall))⟩

/-- Two call paths with a common first frame, and one of them again. -/
theorem run_contextStep_again :
    ∃ contexts ids, Run.run contextStep rootContexts
        [[("5".toList, "0".toList), ("7".toList, "12".toList)], [("5".toList, "0".toList)],
          [("5".toList, "0".toList), ("7".toList, "12".toList)]] = some (contexts, ids) ∧
      IdsOf [[("5".toList, "0".toList), ("7".toList, "12".toList)], [("5".toList, "0".toList)],
          [("5".toList, "0".toList), ("7".toList, "12".toList)]] ids contexts :=
  run_contextStep _ (by decide)

end DroidPerf
