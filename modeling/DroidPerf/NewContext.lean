import DroidPerf.Machine
import Mathlib.Logic.Function.Basic

/-!
# DroidPerf.NewContext

Calling-context trees (`new_context.cpp`). The classes of `context.cpp` are the same code under
names without `New`.

A `NewContext *` is the position of the node among the nodes that were kept. The node that
`addContext` makes to look for a child is deleted again when the child is there, so it gets no
position. `hash` is `std::hash<jint>`; nothing is assumed of it, so that what is proved holds
with any collisions.
-/

namespace DroidPerf

/-- `NewContextFrame`. -/
structure NewContextFrame where
  binaryAddr : Nat := 0
  numaNode : Int := 10
  methodId : Nat := 0
  methodName : List Char := []
  methodVersion : Nat := 0
  sourceFile : List Char := []
  bci : Int := -1
  srcLineno : Int := 0
  deriving DecidableEq, Repr

/-- `NewContext`; `children` are the elements of the hash set. -/
structure NewContext where
  id : Nat
  frame : NewContextFrame
  children : List Nat
  parent : Option Nat
  deriving DecidableEq, Repr

namespace NewContext

/-- `NewContext::contextRefHash`. -/
def contextRefHash (hash : Int → Nat) (ctxt : NewContext) : Nat := hash ctxt.frame.bci

/-- `NewContext::contextRefEqual`. -/
def contextRefEqual (a b : NewContext) : Bool :=
  a.frame.bci = b.frame.bci ∧ a.frame.methodId = b.frame.methodId ∧
    a.frame.binaryAddr = b.frame.binaryAddr ∧ a.frame.numaNode = b.frame.numaNode ∧
    a.frame.methodVersion = b.frame.methodVersion

end NewContext

/-- `NewContextTree`, with the nodes its pointers refer to. The root is the first. -/
structure NewContextTree where
  nodes : List NewContext
  contextMap : Nat → Option Nat
  idCounter : Nat

namespace NewContextTree

variable (hash : Int → Nat)

/-- `NewContextTree::NewContextTree()`. -/
def new : NewContextTree :=
  ⟨[⟨0, {}, [], none⟩], Function.update (fun _ => none) 0 (some 0), 1⟩

/-- Whether a hash set takes its element `c` for the node it looks for: it compares only
elements of the same hash. -/
def isEqual (t : NewContextTree) (ctxt : NewContext) (c : Nat) : Bool :=
  match t.nodes[c]? with
  | some child => child.contextRefHash hash = ctxt.contextRefHash hash ∧ child.contextRefEqual ctxt
  | none => false

/-- `NewContext::findChild`. -/
def findChild (t : NewContextTree) (parent ctxt : NewContext) : Option Nat :=
  parent.children.find? (t.isEqual hash ctxt)

/-- `NewContext::addChild` with the node that becomes the last one. A hash set takes no
second element that is equal to one it has. -/
def addChild (t : NewContextTree) (parent : Nat) (ctxt : NewContext) : List NewContext :=
  (t.nodes ++ [{ ctxt with parent := some parent }]).modify parent fun node =>
    match t.findChild hash node ctxt with
    | some _ => node
    | none => { node with children := node.children ++ [t.nodes.length] }

/-- `NewContextTree::addContext` on a parent. -/
def addContext (t : NewContextTree) (parent : Option Nat) (frame : NewContextFrame) :
    Except Fault (Nat × NewContextTree) :=
  match parent with
  | none => .error .assertion
  | some parent =>
    match t.nodes[parent]? with
    | none => .error .segfault
    | some node =>
      let newCtxt : NewContext := ⟨t.idCounter, frame, [], none⟩
      match t.findChild hash node newCtxt with
      | some child => .ok (child, t)
      | none => .ok (t.nodes.length,
          { nodes := t.addChild hash parent newCtxt
            contextMap := Function.update t.contextMap t.idCounter (some t.nodes.length)
            idCounter := (t.idCounter + 1) % 2 ^ 32 })

/-- `NewContextTree::addContext` on the id of a parent. -/
def addContextById (t : NewContextTree) (parentId : Nat) (frame : NewContextFrame) :
    Except Fault (Nat × NewContextTree) :=
  match t.contextMap parentId with
  | none => .error .assertion
  | some parent => t.addContext hash (some parent) frame

/-- `addContext` folded over the frames of a call path. -/
def addPath (t : NewContextTree) (node : Nat) :
    List NewContextFrame → Except Fault (Nat × NewContextTree)
  | [] => .ok (node, t)
  | frame :: frames => do
    let (child, t) ← t.addContext hash (some node) frame
    t.addPath child frames

/-- Call paths one after another, each from the root. -/
def addPaths (t : NewContextTree) (paths : List (List NewContextFrame)) :
    Except Fault NewContextTree :=
  paths.foldlM (fun t path => (t.addPath hash 0 path).map Prod.snd) t

end NewContextTree

/-- The fields of a frame that tell children apart. -/
structure FrameKey where
  bci : Int
  methodId : Nat
  binaryAddr : Nat
  numaNode : Int
  methodVersion : Nat
  deriving DecidableEq, Repr

/-- The key of a frame. -/
def NewContextFrame.key (frame : NewContextFrame) : FrameKey :=
  ⟨frame.bci, frame.methodId, frame.binaryAddr, frame.numaNode, frame.methodVersion⟩

/-- The keys that are read on the way from a node to the root by `getParent`, from the
root on; `none` when the way is longer than `fuel`. -/
def NewContextTree.keysFromRoot (t : NewContextTree) : Nat → Nat → Option (List FrameKey)
  | 0, _ => none
  | fuel + 1, node =>
    match t.nodes[node]? with
    | none => none
    | some ctxt =>
      match ctxt.parent with
      | none => some []
      | some parent => (t.keysFromRoot fuel parent).map fun keys => keys ++ [ctxt.frame.key]

/-! ### The older classes

`context.cpp` has the same fields and the same functions, so its tree is this one. -/

/-- `ContextFrame`. -/
abbrev ContextFrame : Type := NewContextFrame

/-- `ContextTree`. -/
abbrev ContextTree : Type := NewContextTree

/-- `ContextTree::addContext`. -/
def ContextTree.addContext (hash : Int → Nat) (t : ContextTree) (parent : Option Nat)
    (frame : ContextFrame) : Except Fault (Nat × ContextTree) :=
  NewContextTree.addContext hash t parent frame

end DroidPerf
