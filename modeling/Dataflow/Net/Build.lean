import Dataflow.Net.Wiring
import Dataflow.Supply

/-!
# Building graphs

A `Net` is a graph under construction together with the supply its nodes are numbered from. The
operations below are the only ones that change it. An operation either succeeds, or is refused, or
meets a fault (`NetM`); the state after a failure is part of its result.

`Op` lists the operations as data and `Net.perform` carries one out.
-/

namespace Dataflow

structure Net extends Graph where
  uids : Supply
deriving DecidableEq

/-- An operation on a net. -/
abbrev NetM := EStateM Failure Net

namespace Net

def refuse {α : Type} (r : Refusal) : NetM α := throw (.refused r)

/-- A result that leaves the net as it is. -/
def attempt {α : Type} (r : Except Failure α) : NetM α := fun net =>
  match r with
  | .ok a => .ok a net
  | .error e => .error e net

/-- A node that must exist. -/
def getNode (id : NodeId) : NetM Node := do attempt (orFault ((← get).node id))

/-- A change of the graph that leaves the supply. -/
def change (f : Graph → Graph) : NetM Unit := fun net =>
  .ok () { net with toGraph := f net.toGraph }

/-! ## Nodes -/

/-- Adds a node, numbered by the supply. -/
def push (kind : NodeKind) : NetM NodeId := fun net =>
  match net.uids.take with
  | .ok (uid, uids) =>
    .ok net.nodes.length { net with nodes := net.nodes ++ [{ uid, kind }], uids }
  | .error f => .error (.fault f) net

/-- A new graph, with the split call that is its entry. -/
def start (name : String) (uids : Supply) : Except Fault Net := do
  let (uid, uids) ← uids.take
  return { name, nodes := [{ uid, kind := .split [] }], edges := [], entry := 0, uids }

/-- The block at a node. -/
def getBlock (id : NodeId) : NetM BlockNode := fun net =>
  match net.nodes[id]?.bind Node.block? with
  | some b => .ok b net
  | none => .error (.refused (.badPort id .ctrlOut .missing)) net

/-- The loop at a node. -/
def getLoop (id : NodeId) : NetM LoopNode := fun net =>
  match net.nodes[id]?.bind Node.loop? with
  | some l => .ok l net
  | none => .error (.refused (.badPort id .ctrlIn .missing)) net

def setKind (id : NodeId) (kind : NodeKind) : NetM Unit := change (·.modifyKind id fun _ => kind)

def modifyBlock (id : NodeId) (f : BlockNode → BlockNode) : NetM Unit := do
  setKind id (.block (f (← getBlock id)))

def modifyLoop (id : NodeId) (f : LoopNode → LoopNode) : NetM Unit := do
  setKind id (.loop (f (← getLoop id)))

def addSplit : NetM NodeId := push (.split [])

/-- Adds an argument to a split call. -/
def addArgument (split : NodeId) : NetM NodeId := do
  match (← getNode split).kind with
  | .split arguments =>
    let arg ← push (.arg arguments.length split)
    setKind split (.split (arguments ++ [arg]))
    return arg
  | _ => refuse (.badPort split .dataOut .missing)

def addBlock (block : BlockId) (mode : BlockMode) : NetM NodeId := push (.block { block, mode })

/-- Adds a member to a block. A phi is masked by its own block and stands apart from the other
members. -/
def addInstr (block : NodeId) (op : Opcode) (source : Option InstId) : NetM NodeId := do
  let _ ← getBlock block
  if op.mask?.any (· ≠ block) then
    refuse (.badPort (op.mask?.getD block) .depOut .missing)
  let id ← push (.instr { op, block, source })
  modifyBlock block fun b =>
    if op.mask?.isSome then { b with phis := b.phis ++ [id] }
    else { b with instructions := b.instructions ++ [id] }
  return id

def addMemory (region : Region) : NetM NodeId := push (.memory region)

def addConst (c : Constant) : NetM NodeId := push (.const c)

def addGlobal (id : GlobalId) (symbol : String) : NetM NodeId := push (.global id symbol)

/-! ## Loops -/

def addLoop : NetM NodeId := push (.loop {})

def setLoopHead (loop head : NodeId) : NetM Unit :=
  modifyLoop loop fun l => { l with head := some head }

def addLoopLatch (loop latch : NodeId) : NetM Unit :=
  modifyLoop loop fun l => { l with latches := l.latches ++ [latch] }

/-- Adds a block to a loop. The last loop that a block is added to counts as its innermost. -/
def addLoopBlock (loop block : NodeId) : NetM Unit := do
  let _ ← getLoop loop
  modifyBlock block fun b => { b with parentLoop := some loop }
  modifyLoop loop fun l => { l with blocks := l.blocks ++ [block] }

def addLoopInstr (loop instr : NodeId) : NetM Unit :=
  modifyLoop loop fun l => { l with instructions := l.instructions ++ [instr] }

/-- Accepts every latch as a back edge of its own into the head. -/
def mergeLatches (loop : NodeId) : NetM Unit := modifyLoop loop fun l => { l with merged := true }

/-! ## Edges -/

/-- Joins two nodes by an edge. -/
def connect (kind : EdgeKind) (src dst : NodeId) : NetM Unit := fun net =>
  match net.edgeDefect? kind src dst with
  | none => .ok () { net with toGraph := net.link kind src dst }
  | some defect => .error (.refused (.malformedEdge kind src dst defect)) net

/-- Removes one edge between two nodes and says whether there was one. -/
def disconnect (kind : EdgeKind) (src dst : NodeId) : NetM Bool := fun net =>
  .ok (net.findEdge? kind src dst).isSome { net with toGraph := net.unlink kind src dst }

/-- Makes `src` the token that fires a block. -/
def activate (block src : NodeId) : NetM Unit := do
  let _ ← getBlock block
  connect .control src block
  modifyBlock block fun b => { b with activate := some src }

/-- Feeds a block the condition that decided how control got there. -/
def setMaskSource (block value : NodeId) : NetM Unit := do
  let _ ← getBlock block
  connect .data value block
  modifyBlock block fun b => { b with maskSource := some value }

/-- Releases the pair of edges that serves an access on a unit. -/
def release (kind : AccessKind) (access unit : NodeId) : NetM Unit := do
  let _ ← disconnect kind.request access unit
  let _ ← disconnect kind.response unit access

/-- Records the unit of an access. -/
def setMemory (access unit : NodeId) : NetM Unit :=
  change (·.modifyKind access fun
    | .instr i => .instr { i with op := i.op.withMemory unit }
    | kind => kind)

/-- Binds an access to a memory unit, with one request and one response edge. An access that is
bound to another unit is released from it first, and one that is bound to the unit is left alone. -/
def bind (access unit : NodeId) : NetM Unit := do
  let node ← getNode access
  match node.access? with
  | none => refuse (.malformedEdge .memoryRead access unit .notAnAccess)
  | some kind =>
    if (← getNode unit).type ≠ .memory then
      refuse (.malformedEdge kind.request access unit .notAUnit)
    let old := node.instr?.bind (·.op.memory?)
    unless old = some unit do
      if let some old := old then release kind access old
      setMemory access unit
      connect kind.request access unit
      connect kind.response unit access

end Net

/-! ## Operations as data -/

inductive Op
  | addSplit
  | addArgument (split : NodeId)
  | addBlock (block : BlockId) (mode : BlockMode)
  | addInstr (block : NodeId) (op : Opcode) (source : Option InstId)
  | addLoop
  | addMemory (region : Region)
  | addConst (c : Constant)
  | addGlobal (id : GlobalId) (symbol : String)
  | setLoopHead (loop head : NodeId)
  | addLoopLatch (loop latch : NodeId)
  | addLoopBlock (loop block : NodeId)
  | addLoopInstr (loop instr : NodeId)
  | mergeLatches (loop : NodeId)
  | activate (block src : NodeId)
  | setMaskSource (block value : NodeId)
  | bind (access unit : NodeId)
  | connect (kind : EdgeKind) (src dst : NodeId)
  | disconnect (kind : EdgeKind) (src dst : NodeId)
deriving DecidableEq

namespace Op

/-- What an operation answers. -/
inductive Reply
  | done
  | node (id : NodeId)
  | removed (found : Bool)
deriving DecidableEq

end Op

namespace Net

def perform : Op → NetM Op.Reply
  | .addSplit => do return .node (← addSplit)
  | .addArgument split => do return .node (← addArgument split)
  | .addBlock block mode => do return .node (← addBlock block mode)
  | .addInstr block op source => do return .node (← addInstr block op source)
  | .addLoop => do return .node (← addLoop)
  | .addMemory region => do return .node (← addMemory region)
  | .addConst c => do return .node (← addConst c)
  | .addGlobal id symbol => do return .node (← addGlobal id symbol)
  | .setLoopHead loop head => do setLoopHead loop head; return .done
  | .addLoopLatch loop latch => do addLoopLatch loop latch; return .done
  | .addLoopBlock loop block => do addLoopBlock loop block; return .done
  | .addLoopInstr loop instr => do addLoopInstr loop instr; return .done
  | .mergeLatches loop => do mergeLatches loop; return .done
  | .activate block src => do activate block src; return .done
  | .setMaskSource block value => do setMaskSource block value; return .done
  | .bind access unit => do bind access unit; return .done
  | .connect kind src dst => do connect kind src dst; return .done
  | .disconnect kind src dst => do return .removed (← disconnect kind src dst)

end Net

end Dataflow
