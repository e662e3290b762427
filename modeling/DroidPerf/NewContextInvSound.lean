import DroidPerf.NewContextSound

/-!
# DroidPerf.NewContextInvSound

The four views of a calling-context tree agree: the ids of the nodes, the map from ids, the
parent pointers and the sets of children.

`Represents` says this of parents and children. The ids are added by `Numbered`: as long as the
counter does not wrap around, a node's id is its position, and the map knows exactly the nodes
there are.

A call adds one node at most (`addContext_cases`), so both invariants are kept by a call
(`Numbered.addContext`) and by a run (`runCalls_invariant`). `WellLinked` is what they say
together, in terms of the fields of the nodes (`wellLinked`).
-/

namespace DroidPerf

namespace NewContextTree

variable {hash : Int → Nat}

/-- What holds of every tree that calls of `addContext` build. -/
structure WellLinked (t : NewContextTree) : Prop where
  /-- The ids in the map are those below the counter. -/
  ids : ∀ id, (t.contextMap id).isSome ↔ id < t.idCounter
  /-- A node carries its id. -/
  id_eq : ∀ id n, t.contextMap id = some n → ∃ node, t.nodes[n]? = some node ∧ node.id = id
  root : ∃ n node, t.contextMap 0 = some n ∧ t.nodes[n]? = some node ∧ node.parent = none
  /-- Any other node has a parent with a smaller id, and is a child of it and of no other. -/
  parent : ∀ (id n : Nat) (node : NewContext), t.contextMap id = some n → t.nodes[n]? = some node → id ≠ 0 →
    ∃ (p : Nat) (parentNode : NewContext), node.parent = some p ∧ t.nodes[p]? = some parentNode ∧
      t.contextMap parentNode.id = some p ∧ parentNode.id < id ∧
      ∀ (q : Nat) (other : NewContext), t.nodes[q]? = some other → (n ∈ other.children ↔ q = p)
  /-- Siblings differ in their keys. -/
  siblings : ∀ (p : Nat) (node : NewContext), t.nodes[p]? = some node →
    ∀ c ∈ node.children, ∀ c' ∈ node.children, ∀ child child' : NewContext,
      t.nodes[c]? = some child → t.nodes[c']? = some child' →
      child.frame.key = child'.frame.key → c = c'

/-- The ids are the positions of the nodes. -/
structure Numbered (t : NewContextTree) : Prop where
  counter : t.idCounter = t.nodes.length
  map : ∀ id, t.contextMap id = if id < t.nodes.length then some id else none
  id : ∀ (n : Nat) (node : NewContext), t.nodes[n]? = some node → node.id = n

/-- In a new tree the root has the id 0. -/
theorem numbered_new : Numbered new where
  counter := rfl
  map id := by
    by_cases hid : id = 0
    · subst hid
      rfl
    · simp [new, hid]
  id n node h := by
    obtain ⟨hn, -⟩ := List.getElem?_eq_some_iff.mp h
    have hn : n < 1 := hn
    obtain rfl : n = 0 := by omega
    cases h
    rfl

/-! ### One call

The new node takes the counter as its id, and the counter goes on by one. -/

section Call

variable {t t' : NewContextTree} {T : PathTree FrameKey} {p c : Nat} {frame : NewContextFrame}

/-- A call that finds the child changes nothing; any other adds one node. -/
theorem addContext_cases (h : t.addContext hash (some p) frame = .ok (c, t')) :
    ∃ node, t.nodes[p]? = some node ∧
      (t' = t ∧ t.findChild hash node ⟨t.idCounter, frame, [], none⟩ = some c ∨
      t.findChild hash node ⟨t.idCounter, frame, [], none⟩ = none ∧
        t' = ⟨t.addChild hash p ⟨t.idCounter, frame, [], none⟩,
          Function.update t.contextMap t.idCounter (some t.nodes.length),
          (t.idCounter + 1) % 2 ^ 32⟩) := by
  simp only [addContext] at h
  split at h
  · cases h
  · rename_i node hnode
    refine ⟨node, hnode, ?_⟩
    split at h
    · rename_i child hfind
      cases h
      exact .inl ⟨rfl, hfind⟩
    · rename_i hfind
      cases h
      exact .inr ⟨hfind, rfl⟩

/-- A call keeps the ids in step with the positions, while the counter has not come round. -/
theorem Numbered.addContext (h : Numbered t) (hlt : t.nodes.length + 1 < 2 ^ 32)
    (hadd : t.addContext hash (some p) frame = .ok (c, t')) :
    Numbered t' ∧ t'.nodes.length ≤ t.nodes.length + 1 := by
  obtain ⟨node, hnode, ⟨rfl, -⟩ | ⟨hnone, rfl⟩⟩ := addContext_cases hadd
  · exact ⟨h, Nat.le_succ _⟩
  have hlen : (t.addChild hash p ⟨t.idCounter, frame, [], none⟩).length = t.nodes.length + 1 := by
    simp [addChild]
  refine ⟨⟨?_, fun id => ?_, fun n node' hn => ?_⟩, hlen.le⟩
  · rw [hlen, h.counter, Nat.mod_eq_of_lt hlt]
  · rw [hlen]
    simp only [Function.update_apply, h.counter, h.map]
    -- the map has one id more, that of the new node
    by_cases hid : id = t.nodes.length
    · rw [if_pos hid, if_pos (by omega), hid]
    · rw [if_neg hid]
      by_cases hold : id < t.nodes.length
      · rw [if_pos hold, if_pos (by omega)]
      · rw [if_neg hold, if_neg (by omega)]
  · rw [getElem?_addChild hnode hnone] at hn
    split at hn
    · rename_i hnp
      cases hn
      exact hnp ▸ h.id p node hnode
    · split at hn
      · rename_i hlast
        cases hn
        exact h.counter.trans hlast.symm
      · exact h.id n node' hn

end Call

/-! ### Runs

As many nodes can be added as there are calls, and the root is there from the start. -/

/-- Calls one after another. -/
def runCalls (hash : Int → Nat) (t : NewContextTree) : List Call → Except Fault NewContextTree
  | [] => .ok t
  | call :: calls => do
    let (_, t) ← t.step hash call
    t.runCalls hash calls

/-- A run keeps both invariants. -/
theorem runCalls_invariant {t t' : NewContextTree} {T : PathTree FrameKey} {calls : List Call}
    (hT : Represents t T) (hn : Numbered t) (hlt : t.nodes.length + calls.length < 2 ^ 32)
    (hrun : t.runCalls hash calls = .ok t') : (∃ T', Represents t' T') ∧ Numbered t' := by
  induction calls generalizing t T with
  | nil =>
      cases hrun
      exact ⟨⟨T, hT⟩, hn⟩
  | cons call calls ih =>
      obtain ⟨⟨c, t₁⟩, hstep, hrun⟩ := bind_eq_ok.mp hrun
      obtain ⟨p, frame, hadd⟩ := step_eq_addContext hstep
      rw [List.length_cons] at hlt
      obtain ⟨hn₁, hlen⟩ := hn.addContext (by omega) hadd
      obtain ⟨T₁, hT₁, -⟩ := step_refines hT hstep
      exact ih hT₁ hn₁ (by omega) hrun

/-! ### The views

Each field of `WellLinked`, from the two invariants. -/

section Views

variable {t : NewContextTree} {T : PathTree FrameKey}

/-- The map takes an id to the position of the same number. -/
theorem Numbered.map_eq_some (h : Numbered t) {id n : Nat} :
    t.contextMap id = some n ↔ n = id ∧ id < t.nodes.length := by
  rw [h.map]
  split
  · rename_i hid
    simp [hid, eq_comm]
  · rename_i hid
    simp [hid]

/-- The entry of a node that is not the root. -/
theorem Represents.entry_of_node (h : Represents t T) {i : Nat} {node : NewContext}
    (hnode : t.nodes[i + 1]? = some node) :
    ∃ p, node.parent = some p ∧ T.nodes[i]? = some (p, node.frame.key) := by
  have hi : i < T.nodes.length := by
    have hlen := (List.getElem?_eq_some_iff.mp hnode).1
    have hsize := h.length
    omega
  obtain ⟨node', hnode', hparent, hkey⟩ :=
    (h.entry i T.nodes[i].1 T.nodes[i].2).mp (List.getElem?_eq_getElem hi)
  rw [hnode] at hnode'
  cases hnode'
  exact ⟨_, hparent, hkey ▸ List.getElem?_eq_getElem hi⟩

/-- A node has one child under a key. -/
theorem Represents.child_unique (h : Represents t T) {p c c' : Nat} {node child child' : NewContext}
    (hnode : t.nodes[p]? = some node) (hc : c ∈ node.children) (hc' : c' ∈ node.children)
    (hchild : t.nodes[c]? = some child) (hchild' : t.nodes[c']? = some child')
    (hkey : child.frame.key = child'.frame.key) : c = c' := by
  obtain ⟨i, k, rfl, hentry⟩ := (h.children p node hnode c).mp hc
  obtain ⟨i', k', rfl, hentry'⟩ := (h.children p node hnode c').mp hc'
  obtain ⟨q, -, hq⟩ := h.entry_of_node hchild
  obtain ⟨q', -, hq'⟩ := h.entry_of_node hchild'
  rw [hentry] at hq
  rw [hentry'] at hq'
  cases hq
  cases hq'
  -- parent and key are the same, so it is the same entry
  obtain ⟨hi, hget⟩ := List.getElem?_eq_some_iff.mp hentry
  obtain ⟨hi', hget'⟩ := List.getElem?_eq_some_iff.mp hentry'
  rw [← hkey] at hget'
  rw [(T.nodup.getElem_inj_iff).mp (hget.trans hget'.symm)]

/-- From the two invariants follow all views. -/
theorem wellLinked (hT : Represents t T) (hn : Numbered t) : WellLinked t := by
  have hsize := hT.length
  refine ⟨fun id => ?_, fun id n hid => ?_, ?_, fun id n node hid hnode hzero => ?_,
    fun p node hnode c hc c' hc' child child' hchild hchild' hkey =>
      hT.child_unique hnode hc hc' hchild hchild' hkey⟩
  · rw [hn.map, hn.counter]
    split
    · rename_i hid
      exact iff_of_true rfl hid
    · rename_i hid
      exact iff_of_false nofun hid
  · obtain ⟨rfl, hlt⟩ := hn.map_eq_some.mp hid
    have hnode := List.getElem?_eq_getElem hlt
    exact ⟨_, hnode, hn.id _ _ hnode⟩
  · obtain ⟨node, hnode, hparent⟩ := hT.root
    exact ⟨0, node, hn.map_eq_some.mpr ⟨rfl, by omega⟩, hnode, hparent⟩
  · obtain ⟨rfl, hlt⟩ := hn.map_eq_some.mp hid
    obtain ⟨i, rfl⟩ : ∃ i, n = i + 1 := ⟨n - 1, by omega⟩
    -- a node that is not the root has an entry, and its parent comes before it
    obtain ⟨p, hparent, hentry⟩ := hT.entry_of_node hnode
    have hp := T.parent_le i _ hentry
    have hplt : p < t.nodes.length := by
      simp only at hp
      omega
    have hpnode := List.getElem?_eq_getElem hplt
    have hpid := hn.id _ _ hpnode
    refine ⟨p, _, hparent, hpnode, ?_, ?_, fun q other hother => ?_⟩
    · rw [hpid]
      exact hn.map_eq_some.mpr ⟨rfl, hplt⟩
    · rw [hpid]
      exact Nat.lt_succ_of_le hp
    · rw [hT.children q other hother]
      constructor
      · rintro ⟨j, k, hj, hentry'⟩
        cases hj
        rw [hentry] at hentry'
        cases hentry'
        rfl
      · rintro rfl
        exact ⟨i, _, rfl, hentry⟩

/-- A call for a child that is there returns it and changes nothing. -/
theorem Represents.addContext_found (h : Represents t T) {p c : Nat} {node child : NewContext}
    {frame : NewContextFrame} (hnode : t.nodes[p]? = some node) (hc : c ∈ node.children)
    (hchild : t.nodes[c]? = some child) (hkey : child.frame.key = frame.key) :
    t.addContext hash (some p) frame = .ok (c, t) := by
  simp only [addContext, hnode]
  cases hfind : t.findChild hash node ⟨t.idCounter, frame, [], none⟩ with
  | none =>
      have hequal : t.isEqual hash ⟨t.idCounter, frame, [], none⟩ c = true :=
        isEqual_iff.mpr ⟨child, hchild, hkey⟩
      exact absurd hequal (List.find?_eq_none.mp hfind c hc)
  | some c' =>
      obtain ⟨child', hchild', hkey'⟩ := isEqual_iff.mp (List.find?_some hfind)
      have hsame := h.child_unique hnode hc (List.mem_of_find?_eq_some hfind) hchild hchild'
        (hkey.trans hkey'.symm)
      rw [hsame]

end Views

/-- **One tree, four views.** After any fewer than 2^32 - 1 calls of `addContext`, by parent or
by id: the map has the ids below the counter, each for the node that carries it; the root has
no parent; every other node is a child of one node, its parent, which has a smaller id;
siblings differ in their keys; and a call for a child that is there changes nothing. -/
theorem contextTree_wellLinked (hash : Int → Nat) (calls : List Call)
    (hcalls : calls.length < 2 ^ 32 - 1) {t : NewContextTree}
    (hrun : new.runCalls hash calls = .ok t) :
    WellLinked t ∧ ∀ (p c : Nat) (node child : NewContext) (frame : NewContextFrame),
      t.nodes[p]? = some node → c ∈ node.children → t.nodes[c]? = some child →
      child.frame.key = frame.key → t.addContext hash (some p) frame = .ok (c, t) ∧
        ∀ id, t.contextMap id = some p → t.addContextById hash id frame = .ok (c, t) := by
  have hlt : new.nodes.length + calls.length < 2 ^ 32 := by
    have hone : new.nodes.length = 1 := rfl
    omega
  obtain ⟨⟨T, hT⟩, hn⟩ := runCalls_invariant represents_new numbered_new hlt hrun
  refine ⟨wellLinked hT hn, fun p c node child frame hnode hc hchild hkey => ?_⟩
  have hfound : t.addContext hash (some p) frame = .ok (c, t) :=
    hT.addContext_found hnode hc hchild hkey
  refine ⟨hfound, fun id hid => ?_⟩
  rw [addContextById, hid]
  exact hfound

/-- A chain of two contexts, the second by the id of the first, and a call that finds it. -/
theorem contextTree_wellLinked_chain :
    ∃ t, new.runCalls (fun _ => 0)
      [.byParent 0 { methodId := 1 }, .byId 1 { methodId := 2 }, .byId 1 { methodId := 2 }] =
        .ok t ∧ t.idCounter = 3 ∧ WellLinked t :=
  ⟨_, rfl, rfl, (contextTree_wellLinked (fun _ => 0)
    [.byParent 0 { methodId := 1 }, .byId 1 { methodId := 2 }, .byId 1 { methodId := 2 }]
    (by decide) rfl).1⟩

end NewContextTree

end DroidPerf
