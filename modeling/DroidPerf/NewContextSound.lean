import DroidPerf.NewContext
import DroidPerf.Lib.PathTree

/-!
# DroidPerf.NewContextSound

A calling-context tree tells call paths apart by the keys of their frames, and by nothing else.

`Represents` relates the linked nodes to a `PathTree` over keys: the children of a node are the
entries with it as parent, and following `getParent` reads the path. A call of `addContext` is
a step `Down` of that tree (`addContext_refines`), so what is known of paths there holds of
call paths here, whatever other calls come in between.

`Folded.hasPath` is the induction over a fold, with any calls between its own, and
`addPath_refines` the one over a fold alone. `contextTree_identifies_paths` reads the result
off the tree of keys, which the nodes determine (`Represents.unique`).
-/

namespace DroidPerf

namespace NewContextTree

variable {hash : Int → Nat}

/-! ### The tree of keys

The hash decides where an element is looked for, but not what is found. -/

/-- The nodes are those of the tree of keys. -/
structure Represents (t : NewContextTree) (T : PathTree FrameKey) : Prop where
  length : t.nodes.length = T.nodes.length + 1
  root : ∃ node, t.nodes[0]? = some node ∧ node.parent = none
  entry : ∀ (i p : Nat) (k : FrameKey), T.nodes[i]? = some (p, k) ↔
    ∃ node, t.nodes[i + 1]? = some node ∧ node.parent = some p ∧ node.frame.key = k
  children : ∀ (p : Nat) (node : NewContext), t.nodes[p]? = some node → ∀ c, c ∈ node.children ↔
    ∃ i k, c = i + 1 ∧ T.nodes[i]? = some (p, k)
  map : ∀ id n, t.contextMap id = some n → n < t.nodes.length

/-- A new tree is the root alone. -/
theorem represents_new : Represents new PathTree.root where
  length := rfl
  root := ⟨_, rfl, rfl⟩
  entry i p k := by simp [PathTree.root, new]
  children p node hnode c := by
    rw [new] at hnode
    rw [List.mem_singleton.mp (List.mem_of_getElem? hnode)]
    simp [PathTree.root]
  map id n h := by
    simp only [new, Function.update_apply] at h
    split at h
    · cases h
      exact Nat.zero_lt_one
    · cases h

/-- The tree of keys is determined by the nodes. -/
theorem Represents.unique {t : NewContextTree} {T T' : PathTree FrameKey} (h : Represents t T)
    (h' : Represents t T') : T = T' := by
  have hnodes : T.nodes = T'.nodes := by
    refine List.ext_getElem? fun i => ?_
    refine Option.ext fun e => ?_
    obtain ⟨p, k⟩ := e
    rw [h.entry, h'.entry]
  cases T
  cases T'
  cases hnodes
  rfl

/-- Two nodes are equal to a hash set if their frames have the same key. -/
theorem contextRefEqual_iff {a b : NewContext} :
    a.contextRefEqual b = true ↔ a.frame.key = b.frame.key := by
  simp [NewContext.contextRefEqual, NewContextFrame.key]

/-- A hash set of children compares keys: equal keys have equal hashes. -/
theorem isEqual_iff {t : NewContextTree} {c : Nat} {ctxt : NewContext} :
    t.isEqual hash ctxt c = true ↔
      ∃ child, t.nodes[c]? = some child ∧ child.frame.key = ctxt.frame.key := by
  unfold isEqual
  cases t.nodes[c]? with
  | none => simp
  | some child =>
      simp only [decide_eq_true_eq, contextRefEqual_iff, Option.some.injEq, exists_eq_left',
        and_iff_right_iff_imp]
      intro hkey
      exact congrArg (fun k : FrameKey => hash k.bci) hkey

section Find

variable {t : NewContextTree} {T : PathTree FrameKey} {p : Nat} {node ctxt : NewContext}

/-- A child that is found is an entry under the key of the frame. -/
theorem findChild_eq_some (h : Represents t T) (hnode : t.nodes[p]? = some node) {c : Nat}
    (hc : t.findChild hash node ctxt = some c) :
    ∃ i, c = i + 1 ∧ T.nodes[i]? = some (p, ctxt.frame.key) := by
  obtain ⟨child, hchild, hkey⟩ := isEqual_iff.mp (List.find?_some hc)
  obtain ⟨i, k, rfl, hentry⟩ := (h.children p node hnode c).mp (List.mem_of_find?_eq_some hc)
  obtain ⟨child', hchild', -, hkey'⟩ := (h.entry i p k).mp hentry
  rw [hchild] at hchild'
  cases hchild'
  exact ⟨i, rfl, by rw [hentry, ← hkey, hkey']⟩

/-- If no child is found, the tree of keys has no entry under the key. -/
theorem findChild_eq_none (h : Represents t T) (hnode : t.nodes[p]? = some node)
    (hc : t.findChild hash node ctxt = none) : (p, ctxt.frame.key) ∉ T.nodes := by
  intro hmem
  obtain ⟨i, hentry⟩ := List.getElem?_of_mem hmem
  obtain ⟨child, hchild, -, hkey⟩ := (h.entry i p _).mp hentry
  have hchildren := (h.children p node hnode (i + 1)).mpr ⟨i, _, rfl, hentry⟩
  exact List.find?_eq_none.mp hc (i + 1) hchildren (isEqual_iff.mpr ⟨child, hchild, hkey⟩)

end Find

/-! ### One call

If the child is not there, a node is appended and its parent gets one more child. All other
nodes stay as they are. -/

section Add

variable {t : NewContextTree} {T : PathTree FrameKey} {p : Nat} {node ctxt : NewContext}

/-- The nodes after `addChild`: the parent has one more child, the new node is last. -/
theorem getElem?_addChild (hnode : t.nodes[p]? = some node)
    (hnone : t.findChild hash node ctxt = none) (i : Nat) :
    (t.addChild hash p ctxt)[i]? =
      if i = p then some { node with children := node.children ++ [t.nodes.length] }
      else if i = t.nodes.length then some { ctxt with parent := some p }
      else t.nodes[i]? := by
  unfold addChild
  rw [Intern.getElem?_modify_concat hnode]
  simp [hnone]

section Entries

variable {T' : PathTree FrameKey} (h : Represents t T) (hnode : t.nodes[p]? = some node)
  (hnone : t.findChild hash node ctxt = none)
  (hT' : T'.nodes = T.nodes ++ [(p, ctxt.frame.key)])
include h hnode hnone

/-- The root stays what it is, but for its children. -/
theorem Represents.root_addChild :
    ∃ root, (t.addChild hash p ctxt)[0]? = some root ∧ root.parent = none := by
  obtain ⟨root, hroot, hparent⟩ := h.root
  rw [getElem?_addChild hnode hnone]
  by_cases hzero : 0 = p
  · rw [if_pos hzero]
    rw [hzero, hnode] at hroot
    cases hroot
    exact ⟨_, rfl, hparent⟩
  · rw [if_neg hzero, if_neg (by have hsize := h.length; omega)]
    exact ⟨root, hroot, hparent⟩

include hT'

/-- The parents and keys after `addChild` are the entries of the extended tree. -/
theorem Represents.entry_addChild (i p' : Nat) (k : FrameKey) :
    T'.nodes[i]? = some (p', k) ↔ ∃ child, (t.addChild hash p ctxt)[i + 1]? = some child ∧
      child.parent = some p' ∧ child.frame.key = k := by
  have hp := (List.getElem?_eq_some_iff.mp hnode).1
  have hsize := h.length
  rw [PathTree.getElem?_added hT', h.entry, getElem?_addChild hnode hnone]
  by_cases hip : i + 1 = p
  · -- the parent itself, which keeps its own parent and key
    rw [if_pos hip, hip, hnode]
    constructor
    · rintro (⟨child, hchild, hparent⟩ | ⟨hlast, -⟩)
      · cases hchild
        exact ⟨_, rfl, hparent⟩
      · omega
    · rintro ⟨child, hchild, hparent⟩
      cases hchild
      exact .inl ⟨node, rfl, hparent⟩
  · rw [if_neg hip]
    by_cases hlast : i + 1 = t.nodes.length
    · rw [if_pos hlast, hlast, List.getElem?_eq_none (Nat.le_refl _)]
      simp only [reduceCtorEq, false_and, exists_false, false_or, Option.some.injEq,
        exists_eq_left', Prod.mk.injEq]
      constructor
      · rintro ⟨-, rfl, rfl⟩
        exact ⟨rfl, rfl⟩
      · rintro ⟨rfl, rfl⟩
        exact ⟨by omega, rfl, rfl⟩
    · rw [if_neg hlast]
      exact ⟨fun hcases => hcases.resolve_right fun hnew => hlast (by omega), .inl⟩

/-- The sets of children after `addChild` are those of the extended tree. -/
theorem Represents.children_addChild (hchildren : ctxt.children = []) {q : Nat}
    {node' : NewContext} (hnode' : (t.addChild hash p ctxt)[q]? = some node') (c : Nat) :
    c ∈ node'.children ↔ ∃ i k, c = i + 1 ∧ T'.nodes[i]? = some (q, k) := by
  have hsize := h.length
  rw [getElem?_addChild hnode hnone] at hnode'
  simp only [PathTree.getElem?_added hT']
  by_cases hqp : q = p
  · rw [if_pos hqp] at hnode'
    cases hnode'
    subst hqp
    simp only [List.mem_append, List.mem_singleton, h.children q node hnode c]
    constructor
    · rintro (⟨i, k, hi, hentry⟩ | rfl)
      · exact ⟨i, k, hi, .inl hentry⟩
      · exact ⟨T.nodes.length, _, hsize, .inr ⟨rfl, rfl⟩⟩
    · rintro ⟨i, k, hi, hentry | ⟨rfl, -⟩⟩
      · exact .inl ⟨i, k, hi, hentry⟩
      · exact .inr (by omega)
  · -- another node has the children it had, and the new one has none
    rw [if_neg hqp] at hnode'
    have hold : ∀ i k, (T.nodes[i]? = some (q, k) ∨
        i = T.nodes.length ∧ (q, k) = (p, ctxt.frame.key)) ↔ T.nodes[i]? = some (q, k) := by
      simp [hqp]
    simp only [hold]
    by_cases hlast : q = t.nodes.length
    · rw [if_pos hlast] at hnode'
      cases hnode'
      rw [hchildren]
      simp only [List.not_mem_nil, false_iff]
      rintro ⟨i, k, -, hentry⟩
      have hparent := T.parent_lt hentry
      omega
    · rw [if_neg hlast] at hnode'
      exact h.children q node' hnode' c

end Entries

/-- A new child is a new entry of the tree of keys. -/
theorem Represents.addChild (h : Represents t T) (hnode : t.nodes[p]? = some node)
    (hnone : t.findChild hash node ctxt = none) (hchildren : ctxt.children = [])
    {T' : PathTree FrameKey} (hT' : T'.nodes = T.nodes ++ [(p, ctxt.frame.key)]) {id : Nat}
    {counter : Nat} :
    Represents ⟨t.addChild hash p ctxt, Function.update t.contextMap id (some t.nodes.length),
      counter⟩ T' := by
  have hlen : (t.addChild hash p ctxt).length = t.nodes.length + 1 := by
    simp [NewContextTree.addChild]
  refine ⟨?_, h.root_addChild hnode hnone, h.entry_addChild hnode hnone hT',
    fun q node' hnode' => h.children_addChild hnode hnone hT' hchildren hnode', ?_⟩
  · rw [hlen, hT', List.length_append, List.length_singleton, h.length]
  · intro id' n hn
    rw [hlen]
    simp only [Function.update_apply] at hn
    split at hn
    · cases hn
      exact Nat.lt_succ_self _
    · exact Nat.lt_succ_of_lt (h.map id' n hn)

variable (hash) in
/-- A call of `addContext` goes down to the child under the frame's key. -/
theorem addContext_refines (h : Represents t T) (hp : p < t.nodes.length)
    (frame : NewContextFrame) :
    ∃ c t' T', t.addContext hash (some p) frame = .ok (c, t') ∧ T.Down p frame.key c T' ∧
      Represents t' T' := by
  have hnode : t.nodes[p]? = some t.nodes[p] := List.getElem?_eq_getElem hp
  unfold addContext
  simp only [hnode]
  cases hfind : t.findChild hash t.nodes[p] ⟨t.idCounter, frame, [], none⟩ with
  | some c =>
      obtain ⟨i, rfl, hentry⟩ := findChild_eq_some h hnode hfind
      exact ⟨i + 1, t, T, rfl, .found hentry, h⟩
  | none =>
      have hnew := findChild_eq_none h hnode hfind
      have hle : p ≤ T.nodes.length := by
        have hsize := h.length
        omega
      refine ⟨_, _, T.add p frame.key hle hnew, rfl, ?_, h.addChild hnode hfind rfl rfl⟩
      rw [h.length]
      exact .added hle hnew rfl

end Add

/-! ### Runs

Several threads may call `addContext` on the same tree. So a fold is followed through any calls
that others make in between. -/

/-- A call of one of the two `addContext`. -/
inductive Call where
  | byParent (parent : Nat) (frame : NewContextFrame)
  | byId (parentId : Nat) (frame : NewContextFrame)

/-- One call. -/
def step (hash : Int → Nat) (t : NewContextTree) : Call → Except Fault (Nat × NewContextTree)
  | .byParent parent frame => t.addContext hash (some parent) frame
  | .byId parentId frame => t.addContextById hash parentId frame

/-- Any calls. -/
inductive Calls (hash : Int → Nat) : NewContextTree → NewContextTree → Prop
  | refl {t : NewContextTree} : Calls hash t t
  | call {t t₁ t' : NewContextTree} {call : Call} {c : Nat} :
      t.step hash call = .ok (c, t₁) → Calls hash t₁ t' → Calls hash t t'

/-- `addContext` folded over frames from the node `n`, which ends at the node `m`, with any
other calls before, between and after. -/
inductive Folded (hash : Int → Nat) :
    NewContextTree → Nat → List NewContextFrame → NewContextTree → Nat → Prop
  | done {t : NewContextTree} {n : Nat} : Folded hash t n [] t n
  | frame {t t₁ t' : NewContextTree} {n c m : Nat} {frame : NewContextFrame}
      {frames : List NewContextFrame} : t.addContext hash (some n) frame = .ok (c, t₁) →
      Folded hash t₁ c frames t' m → Folded hash t n (frame :: frames) t' m
  | other {t t₁ t' : NewContextTree} {n c m : Nat} {call : Call} {frames : List NewContextFrame} :
      t.step hash call = .ok (c, t₁) → Folded hash t₁ n frames t' m → Folded hash t n frames t' m

section Runs

variable {t t' : NewContextTree} {T : PathTree FrameKey}

/-- A call by id is a call by parent. -/
theorem step_eq_addContext {call : Call} {c : Nat} (h : t.step hash call = .ok (c, t')) :
    ∃ p frame, t.addContext hash (some p) frame = .ok (c, t') := by
  cases call with
  | byParent p frame => exact ⟨p, frame, h⟩
  | byId id frame =>
      simp only [step, addContextById] at h
      split at h
      · cases h
      · exact ⟨_, frame, h⟩

/-- A call extends the tree of keys or leaves it as it is. -/
theorem step_refines (h : Represents t T) {call : Call} {c : Nat}
    (hstep : t.step hash call = .ok (c, t')) :
    ∃ T', Represents t' T' ∧ T.nodes <+: T'.nodes := by
  obtain ⟨p, frame, hadd⟩ := step_eq_addContext hstep
  have hp : p < t.nodes.length := by
    by_contra hp
    simp [addContext, List.getElem?_eq_none (not_lt.mp hp)] at hadd
  obtain ⟨c', t'', T', hadd', hdown, h'⟩ := addContext_refines hash h hp frame
  rw [hadd] at hadd'
  cases hadd'
  exact ⟨T', h', hdown.isPrefix⟩

/-- After any calls there is a tree of keys. -/
theorem Calls.represents (h : Represents t T) (hcalls : Calls hash t t') :
    ∃ T', Represents t' T' := by
  induction hcalls generalizing T with
  | refl => exact ⟨T, h⟩
  | call hstep _ ih =>
      obtain ⟨T₁, h₁, -⟩ := step_refines h hstep
      exact ih h₁

/-- A fold ends at the node whose path is the keys of the frames. -/
theorem Folded.hasPath {n m : Nat} {frames : List NewContextFrame} {ks : List FrameKey}
    (h : Represents t T) (hn : T.HasPath n ks) (hfold : Folded hash t n frames t' m) :
    ∃ T', Represents t' T' ∧ T'.HasPath m (ks ++ frames.map NewContextFrame.key) := by
  induction hfold generalizing T ks with
  | done => exact ⟨T, h, by simpa using hn⟩
  | @frame t t₁ t' n c m frame frames hadd _ ih =>
      have hlt : n < t.nodes.length := by
        have hle := hn.le
        have hsize := h.length
        omega
      obtain ⟨c', t₁', T₁, hadd', hdown, h₁⟩ := addContext_refines hash h hlt frame
      rw [hadd] at hadd'
      cases hadd'
      obtain ⟨T', h', hpath⟩ := ih h₁ (hdown.hasPath hn)
      exact ⟨T', h', by simpa using hpath⟩
  | other hstep _ ih =>
      obtain ⟨T₁, h₁, hpre⟩ := step_refines h hstep
      exact ih h₁ (hn.mono hpre)

variable (hash) in
/-- A fold on its own is a walk in the tree of keys, and always returns. -/
theorem addPath_refines (h : Represents t T) {n : Nat} (hn : n < t.nodes.length)
    (frames : List NewContextFrame) :
    ∃ m t' T', t.addPath hash n frames = .ok (m, t') ∧
      T.Walk n (frames.map NewContextFrame.key) m T' ∧ Represents t' T' := by
  induction frames generalizing t T n with
  | nil => exact ⟨n, t, T, rfl, .nil, h⟩
  | cons frame frames ih =>
      obtain ⟨c, t₁, T₁, hadd, hdown, h₁⟩ := addContext_refines hash h hn frame
      have hc : c < t₁.nodes.length := by
        obtain ⟨ks, hks⟩ := T.exists_hasPath (n := n) (by have hsize := h.length; omega)
        have hle := (hdown.hasPath hks).le
        have hsize := h₁.length
        omega
      obtain ⟨m, t', T', hpath, hwalk, h'⟩ := ih h₁ hc
      exact ⟨m, t', T', by simp only [addPath, hadd, ok_bind, hpath], .cons hdown hwalk, h'⟩

/-! ### Reading back

The way from a node to the root is as long as its path, so the fuel for it is the number of
nodes. -/

/-- Following `getParent` reads the path of the node. -/
theorem keysFromRoot_eq (h : Represents t T) {n : Nat} {ks : List FrameKey} (hn : T.HasPath n ks)
    {fuel : Nat} (hfuel : n < fuel) : t.keysFromRoot fuel n = some ks := by
  induction hn generalizing fuel with
  | root =>
      obtain ⟨fuel, rfl⟩ : ∃ f, fuel = f + 1 := ⟨fuel - 1, by omega⟩
      obtain ⟨node, hnode, hparent⟩ := h.root
      simp only [keysFromRoot, hnode, hparent]
  | @child i p k ks hentry _ ih =>
      obtain ⟨fuel, rfl⟩ : ∃ f, fuel = f + 1 := ⟨fuel - 1, by omega⟩
      obtain ⟨node, hnode, hparent, hkey⟩ := (h.entry i p k).mp hentry
      have hle : p ≤ i := T.parent_le i _ hentry
      simp only [keysFromRoot, hnode, hparent, ih (show p < fuel by omega), Option.map_some, hkey]

/-- The keys on the way from the root to some node. -/
def KeyPath (t : NewContextTree) (ks : List FrameKey) : Prop :=
  ∃ n, t.keysFromRoot t.nodes.length n = some ks

/-- The paths of the nodes are those of the tree of keys. -/
theorem keyPath_iff (h : Represents t T) {ks : List FrameKey} : t.KeyPath ks ↔ T.IsPath ks := by
  have hsize := h.length
  constructor
  · intro hkeys
    obtain ⟨n, hn⟩ := hkeys
    have hlt : n < t.nodes.length := by
      by_contra hlt
      rw [hsize, keysFromRoot, List.getElem?_eq_none (by omega)] at hn
      cases hn
    obtain ⟨ks', hks'⟩ := T.exists_hasPath (n := n) (by omega)
    rw [keysFromRoot_eq h hks' hlt] at hn
    cases hn
    exact ⟨n, hks'⟩
  · intro hpath
    obtain ⟨n, hn⟩ := hpath
    have hle := hn.le
    exact ⟨n, keysFromRoot_eq h hn (by omega)⟩

variable (hash) in
/-- Inserted call paths add themselves and what is on their way. -/
theorem addPaths_isPath (h : Represents t T) (paths : List (List NewContextFrame)) :
    ∃ t' T', t.addPaths hash paths = .ok t' ∧ Represents t' T' ∧ ∀ ks, T'.IsPath ks ↔
      T.IsPath ks ∨ ∃ path ∈ paths, ks <+: path.map NewContextFrame.key := by
  induction paths generalizing t T with
  | nil => exact ⟨t, T, rfl, h, by simp⟩
  | cons path paths ih =>
      obtain ⟨m, t₁, T₁, hpath, hwalk, h₁⟩ :=
        addPath_refines hash h (n := 0) (by have hsize := h.length; omega) path
      obtain ⟨t', T', hrest, h', hpaths⟩ := ih h₁
      refine ⟨t', T', ?_, h', fun ks => ?_⟩
      · simp only [addPaths, List.foldlM_cons, hpath, Except.map, ok_bind]
        exact hrest
      · rw [hpaths, hwalk.isPath_iff .root]
        simp only [List.nil_append, exists_eq_right', List.exists_mem_cons_iff, or_assoc]

end Runs

/-- **Call paths.** In every tree that calls of `addContext` build:
* a fold over a call path returns;
* two folds from the root end at the same node exactly when their frames agree in bci, method
  id, address, NUMA node and version, one by one, whatever other calls come before, between or
  after; and `getParent` reads these back;
* the paths of the tree do not depend on the order in which call paths are inserted. -/
theorem contextTree_identifies_paths (hash : Int → Nat) :
    (∀ t, Calls hash new t → ∀ frames, ∃ n t', t.addPath hash 0 frames = .ok (n, t')) ∧
    (∀ t p q a b, Folded hash new 0 p t a → Folded hash new 0 q t b →
      (a = b ↔ List.Forall₂ (fun f g => f.key = g.key) p q) ∧
      t.keysFromRoot t.nodes.length a = some (p.map NewContextFrame.key)) ∧
    (∀ t, Calls hash new t → ∀ ps qs : List (List NewContextFrame), ps.Perm qs →
      ∃ t₁ t₂, t.addPaths hash ps = .ok t₁ ∧ t.addPaths hash qs = .ok t₂ ∧
        ∀ ks, t₁.KeyPath ks ↔ t₂.KeyPath ks) := by
  refine ⟨fun t ht frames => ?_, fun t p q a b hp hq => ?_, fun t ht ps qs hperm => ?_⟩
  · obtain ⟨T, hT⟩ := ht.represents represents_new
    obtain ⟨n, t', -, hadd, -⟩ :=
      addPath_refines hash hT (n := 0) (by have hsize := hT.length; omega) frames
    exact ⟨n, t', hadd⟩
  · obtain ⟨T, hT, ha⟩ := hp.hasPath represents_new .root
    obtain ⟨T', hT', hb⟩ := hq.hasPath represents_new .root
    obtain rfl := hT.unique hT'
    rw [List.nil_append] at ha hb
    refine ⟨?_, keysFromRoot_eq hT ha ?_⟩
    · -- frames with the same keys in turn are lists with the same keys
      have hforall : List.Forall₂ (fun f g => f.key = g.key) p q ↔
          p.map NewContextFrame.key = q.map NewContextFrame.key := by
        rw [← List.forall₂_eq_eq_eq, List.forall₂_map_left_iff, List.forall₂_map_right_iff]
      rw [hforall]
      constructor
      · intro hab
        exact ha.unique (hab ▸ hb)
      · intro hkeys
        exact ha.inj (hkeys ▸ hb)
    · have hle := ha.le
      have hsize := hT.length
      omega
  · obtain ⟨T, hT⟩ := ht.represents represents_new
    obtain ⟨t₁, T₁, hadd₁, hT₁, hpaths₁⟩ := addPaths_isPath hash hT ps
    obtain ⟨t₂, T₂, hadd₂, hT₂, hpaths₂⟩ := addPaths_isPath hash hT qs
    refine ⟨t₁, t₂, hadd₁, hadd₂, fun ks => ?_⟩
    rw [keyPath_iff hT₁, keyPath_iff hT₂, hpaths₁, hpaths₂]
    simp only [hperm.mem_iff]

/-- Two call sites of one method, with colliding hashes, are two nodes. -/
theorem contextTree_identifies_paths_call_sites :
    ∃ t a b, Folded (fun _ => 0) new 0 [{ methodId := 1, bci := 2 }] t a ∧
      Folded (fun _ => 0) new 0 [{ methodId := 1, bci := 3 }] t b ∧ a ≠ b ∧
      t.keysFromRoot t.nodes.length a = some [⟨2, 1, 0, 10, 0⟩] := by
  obtain ⟨-, hfolds, -⟩ := contextTree_identifies_paths fun _ => 0
  have hcall : ∀ (t : NewContextTree) (bci : Int),
      t.step (fun _ => 0) (.byParent 0 { methodId := 1, bci := bci }) =
        t.addContext (fun _ => 0) (some 0) { methodId := 1, bci := bci } := fun _ _ => rfl
  have hp : Folded (fun _ => 0) new 0 [{ methodId := 1, bci := 2 }] _ 1 :=
    .frame rfl (.other (hcall _ 3) .done)
  have hq : Folded (fun _ => 0) new 0 [{ methodId := 1, bci := 3 }] _ 2 :=
    .other (hcall _ 2) (.frame rfl .done)
  obtain ⟨hsame, hkeys⟩ := hfolds _ _ _ _ _ hp hq
  refine ⟨_, 1, 2, hp, hq, fun heq => ?_, hkeys⟩
  cases hsame.mp heq with
  | cons hkey _ => exact absurd hkey (by decide)

end NewContextTree

end DroidPerf
