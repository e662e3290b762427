import DroidPerf.Agent

/-!
# DroidPerf.Process

The threads of a process, and the global variables they share.

A callback runs on one thread. It finds the global variables as the last callback of any thread
left them. Callbacks of several threads are taken one after another here; where two of them can
run at once, as under the locks of the method cache, the module for it says so.
-/

namespace DroidPerf

/-- A process. The global variables that a thread keeps among its own are not used. -/
structure Process where
  threads : Nat → AgentThread
  globals : Globals

namespace Process

/-- Before the first callback. -/
def start : Process := ⟨newThread, .start⟩

/-- A thread as a callback finds it. -/
def thread (p : Process) (tid : Nat) : AgentThread :=
  { p.threads tid with user := { (p.threads tid).user with globals := p.globals } }

/-- A callback on a thread. -/
def call (env : AgentEnv) (p : Process) (tid : Nat) (callback : Callback) :
    Except Fault Process := do
  let w ← runCallback env callback (p.thread tid)
  return ⟨Function.update p.threads tid w, w.user.globals⟩

end Process

/-- The callbacks of a process that have to do with the method files. A free comes with the
order in which it finds the set of sites. -/
inductive ProcessEvent where
  | threadStart (tid : Nat) (answers : Nat → Fin 8 → SetupAnswers)
  | objectAlloc (tid : Nat) (args : AllocArgs)
  | objectFree (traversal : ListSet.Traversal (List Char)) (tag : Nat)
  | methodEntry (tid : Nat) (stackTrace : Option (List Frame))

/-- One callback. -/
def Process.step (env : AgentEnv) (p : Process) : ProcessEvent → Except Fault Process
  | .threadStart tid answers => p.call env tid (.threadStart answers)
  | .objectAlloc tid args => p.call env tid (.objectAlloc args)
  | .objectFree traversal tag =>
    (objectFree traversal tag p.globals).map fun g => { p with globals := g }
  | .methodEntry tid stackTrace => p.call env tid (.methodEntry stackTrace)

/-- Callbacks one after another. -/
def Process.run (env : AgentEnv) (events : List ProcessEvent) : Except Fault Process :=
  events.foldlM (Process.step env) .start

end DroidPerf
