import Dataflow.Lower.Route
import Dataflow.Net.Audit

/-!
# Lowering a function

Lowering lays out the nodes of a function, routes control, masks and data, binds memory accesses and
puts them in order, collects the loops, and finishes the graph. A `Session` lowers any number of
functions; their nodes are numbered from one supply, so no two of them share a name. A lowering that
fails has still used up the numbers it took.
-/

namespace Dataflow

structure Options where
  /-- A loop may have several back edges, each a control input of its head. -/
  mergeLatches : Bool
  /-- Accesses whose region is not known go to region 0. -/
  defaultMemory : Bool
deriving DecidableEq

namespace Options

/-- Refuses whatever is ambiguous. -/
def strict : Options := { mergeLatches := false, defaultMemory := false }

def permissive : Options := { mergeLatches := true, defaultMemory := true }

end Options

namespace Plan

variable (p : Plan)

/-! ## Memory -/

/-- Whether one access can run before another within one run of the function. -/
def precedes (earlier later : Access) : Except Fault Bool :=
  if earlier.block = later.block then .ok (earlier.index < later.index)
  else p.flow.forwardReaches earlier.block later.block

/-- Whether two accesses are in order and one of them writes. -/
def conflicts (pair : Access × Access) : Except Fault Bool :=
  if pair.1.kind = .load ∧ pair.2.kind = .load then .ok false else p.precedes pair.1 pair.2

/-- Each access paired with those in front of it. -/
def pairs (accesses : List Access) : List (Access × Access) :=
  accesses.zipIdx.flatMap fun later => (accesses.take later.2).map (·, later.1)

/-- The pairs of accesses that have to keep their order if they touch the same memory. -/
def conflicting (accesses : List Access) : Except Fault (List (Access × Access)) :=
  (pairs accesses).filterM p.conflicts

/-- The memory unit of a region. -/
def unitNode (region : Region) : NetM NodeId := do
  match (← get).unitNode? region with
  | some n => return n
  | none => Net.addMemory region

/-- Binds an access to the unit of its region. -/
def routeAccess (options : Options) (access : Access × Option Region) : NetM Unit := do
  let fallback := if options.defaultMemory then some 0 else none
  if let some region := access.2.or fallback then
    Net.bind access.1.node (← unitNode region)

def routeMemory (options : Options) (accesses : List (Access × Option Region))
    (ordered : List (Access × Access)) : NetM Unit := do
  accesses.forM (routeAccess options)
  ordered.forM fun pair => Net.connect .dependency pair.1.node pair.2.node

/-! ## Loops -/

def layLoopBlock (node : NodeId) (b : BlockId) : NetM Unit := do
  let parent ← blockNode b
  Net.addLoopBlock node parent
  ((← get).membersOf parent).forM (Net.addLoopInstr node)

def layLoop (options : Options) (l : NaturalLoop) : NetM Unit := do
  let node ← Net.addLoop
  Net.setLoopHead node (← blockNode l.header)
  l.latches.forM fun latch => do Net.addLoopLatch node (← blockNode latch)
  if 1 < l.latches.length ∧ options.mergeLatches then Net.mergeLatches node
  l.body.forM (layLoopBlock node)

/-! ## The two parts of lowering -/

/-- Lays out and routes everything that can be known without asking about memory. -/
def construct : NetM (List Access) := do
  Net.attempt p.check
  let placed ← p.layOut
  p.route placed
  return placed.filterMap Placed.access?

/-- Routes memory, collects the loops and finishes the graph. -/
def complete (options : Options) (accesses : List (Access × Option Region))
    (ordered : List (Access × Access)) : NetM Graph := do
  routeMemory options accesses ordered
  p.loops.forM (layLoop options)
  Net.finish

end Plan

/-! ## Sessions -/

/-- Any number of lowerings with one supply of numbers for their nodes. -/
structure Session where
  uids : Supply := {}
  options : Options := .strict
deriving DecidableEq

namespace Session

/-- A session that starts again from the first number. -/
def reset (s : Session) : Session := { s with uids := {} }

/-- What a lowering leaves: the graph or why there is none, the session, and the state of the
disambiguator. -/
structure Lowered (σ : Type) where
  result : Except Failure Graph
  session : Session
  oracle : σ

variable {σ : Type}

/-- Asks about the accesses of a function and completes its graph. -/
def settle (s : Session) (p : Plan) (d : Disambiguator σ) (oracle : σ) (net : Net)
    (accesses : List Access) (conflicting : List (Access × Access)) : Lowered σ :=
  let (regions, oracle) := d.regions accesses oracle
  let (ordered, oracle) := d.aliasing conflicting oracle
  match (p.complete s.options (accesses.zip regions) ordered).run net with
  | .ok graph net => ⟨.ok graph, { s with uids := net.uids }, oracle⟩
  | .error e net => ⟨.error e, { s with uids := net.uids }, oracle⟩

/-- A function and the graph that it starts from. -/
def prepare (s : Session) (f : Function) : Except Fault (Plan × Net) := do
  let p ← Plan.ofFunction f
  let net ← Net.start p.function.name s.uids
  return (p, net)

/-- Lowers a function into a graph of its own. -/
def lower (s : Session) (f : Function) (d : Disambiguator σ) (oracle : σ) : Lowered σ :=
  match s.prepare f with
  | .error e => ⟨.error (.fault e), s, oracle⟩
  | .ok (p, net) =>
    match p.construct.run net with
    | .error e net => ⟨.error e, { s with uids := net.uids }, oracle⟩
    | .ok accesses net =>
      match p.conflicting accesses with
      | .error e => ⟨.error (.fault e), { s with uids := net.uids }, oracle⟩
      | .ok conflicting => s.settle p d oracle net accesses conflicting

end Session

end Dataflow
