import Dataflow.Net.Build

/-!
# Finishing a graph

`Graph.audit` checks everything a finished graph promises and stops at the first promise that is
broken: edges and ports agree, blocks are activated and activate their members, phis have one input
for each predecessor, loops have one entry and as many back edges as latches, and every memory access
is served by the one unit it is bound to. `Net.finish` hands out the graph if it passes.
-/

namespace Dataflow.Graph

variable (g : Graph)

def reject {α : Type} (r : Refusal) : Except Failure α := .error (.refused r)

/-- Demands a condition. -/
def demand (condition : Prop) [Decidable condition] (r : Refusal) : Except Failure Unit :=
  if condition then .ok () else reject r

/-! ## Ports -/

/-- Both ends of an edge have it in their port lists, at the recorded positions. -/
def checkEdge (e : Edge) : Except Failure Unit := do
  let source ← orFault (g.node e.src)
  let target ← orFault (g.node e.dst)
  demand ((source.ports.get e.kind.sourceSlot)[e.srcPort]? = some e.dst ∧
      (target.ports.get e.kind.targetSlot)[e.dstPort]? = some e.src)
    (.malformedEdge e.kind e.src e.dst .outOfSync)

/-- The number of times edges land in a slot of a node. -/
def landings (edges : List Edge) (id : NodeId) (slot : Slot) : Nat :=
  edges.countP (fun e => e.src = id ∧ e.kind.sourceSlot = slot) +
    edges.countP (fun e => e.dst = id ∧ e.kind.targetSlot = slot)

/-- The edge that a port without an edge would belong to. -/
def strayPort (id : NodeId) (slot : Slot) (entries : List NodeId) : Refusal :=
  let kind := (EdgeKind.all.find? (·.uses slot)).getD .data
  let other := entries.getLast?.getD id
  if slot.isSourceSide then .malformedEdge kind id other .portWithoutEdge
  else .malformedEdge kind other id .portWithoutEdge

/-- Every slot of a node has as many ports as edges land in it. -/
def checkCounts (n : Node × NodeId) : Except Failure Unit :=
  let edges := g.edges.filter fun e => e.src = n.2 ∨ e.dst = n.2
  Slot.all.forM fun slot =>
    demand ((n.1.ports.get slot).length = landings edges n.2 slot)
      (strayPort n.2 slot (n.1.ports.get slot))

/-- Edges and port lists say the same. -/
def checkPorts : Except Failure Unit := do
  g.edges.forM g.checkEdge
  g.nodes.zipIdx.forM g.checkCounts

/-! ## Blocks -/

/-- A member waits for its block, and for the block's mask if it needs to know the way control came:
phis always, stores in a masked block. -/
def checkMember (id : NodeId) (b : BlockNode) (member : NodeId) : Except Failure Unit := do
  let node ← orFault (g.node member)
  demand (id ∈ node.ports.ctrlIn) (.unactivated member id)
  demand ((node.isOp .phi ∨ b.mode = .masked ∧ node.isOp .store) → id ∈ node.ports.depIn)
    (.malformedEdge .mask id member .missingMask)

/-- The block that a control input comes from, if it comes from a member of one. -/
def originOf (ctrl : NodeId) : Except Fault (Option BlockId) := do
  match (← g.node ctrl).instr? with
  | some i => return (← g.node i.block).block?.map (·.block)
  | none => return none

/-- A control input comes from the predecessor that the phi has at its position. -/
def checkOrigin (id : NodeId) (input : NodeId × BlockId) : Except Failure Unit := do
  let origin ← orFault (g.originOf input.1)
  demand (origin = some input.2) (.malformedEdge .control input.1 id .controlOrder)

/-- A phi has one data input for each predecessor, and the first control inputs of its block come from
these predecessors in the same order. -/
def checkPhi (id : NodeId) (controls : List NodeId) (phi : NodeId) : Except Failure Unit := do
  let node ← orFault (g.node phi)
  match node.instr?.map InstrNode.op with
  | some (.phi _ predecessors) =>
    demand (node.ports.dataIn.length = predecessors.length)
      (.malformedEdge .data phi phi .phiInputCount)
    demand (predecessors.length ≤ controls.length) (.malformedEdge .control id phi .phiFanIn)
    (controls.zip predecessors).forM (g.checkOrigin id)
  | _ => return ()

def checkBlock (id : NodeId) (node : Node) (b : BlockNode) : Except Failure Unit := do
  demand (b.activate.any (· ∈ node.ports.ctrlIn)) (.unactivated id id)
  b.members.forM (g.checkMember id b)
  b.phis.forM (g.checkPhi id node.ports.ctrlIn)

/-! ## Loops -/

/-- Whether a control input comes from an instruction of a loop. -/
def isInside (l : LoopNode) (src : NodeId) : Except Fault Bool := do
  return (← g.node src).instr?.any (·.block ∈ l.blocks)

def checkLoop (id : NodeId) (l : LoopNode) : Except Failure Unit := do
  match l.head with
  | none => reject (.unresolvedLoop id .missingHead)
  | some head =>
    demand (head ∈ l.blocks) (.unresolvedLoop id .headNotMember)
    demand (l.latches ≠ []) (.unresolvedLoop id .missingLatch)
    if let some latch := l.latches.find? (· ∉ l.blocks) then
      reject (.unresolvedLoop id (.latchNotMember latch))
    demand (l.latches.length ≤ 1 ∨ l.merged)
      (.unresolvedLoop id (.ambiguousLatches l.latches.length))
    let controls := (← orFault (g.node head)).ports.ctrlIn
    let inside ← orFault (controls.mapM (g.isInside l))
    demand (inside.count false = 1) (.unresolvedLoop id (.entryCount (inside.count false)))
    demand (controls.length = 1 + l.latches.length)
      (.unresolvedLoop id (.fanIn (1 + l.latches.length) controls.length))

/-! ## Memory -/

/-- An access is bound to one unit and has one request and one response port on it. -/
def checkAccess (id : NodeId) (node : Node) (i : InstrNode) : Except Failure Unit :=
  demand (i.op.memory?.any fun unit => node.ports.memReq = [unit] ∧ node.ports.memResp = [unit])
    (.unboundAccess id)

/-- A request comes from an access that is bound to the unit and gets a response. -/
def checkRequest (id : NodeId) (kind : AccessKind) (responses : List NodeId) (access : NodeId) :
    Except Failure Unit := do
  let node ← orFault (g.node access)
  demand (node.access? = some kind ∧ node.instr?.bind (·.op.memory?) = some id ∧
      access ∈ responses)
    (.malformedEdge kind.request access id .unanswered)

def checkPairs (id : NodeId) (node : Node) (kind : AccessKind) : Except Failure Unit := do
  let requests := node.ports.get kind.request.targetSlot
  let responses := node.ports.get kind.response.sourceSlot
  demand (requests.length = responses.length) (.malformedEdge kind.request id id .unbalanced)
  requests.forM (g.checkRequest id kind responses)

def checkUnit (id : NodeId) (node : Node) : Except Failure Unit := do
  g.checkPairs id node .load
  g.checkPairs id node .store

/-! ## The audit -/

/-- A branch activates its successors in order. -/
def checkBranch (id : NodeId) (node : Node) (i : InstrNode) : Except Failure Unit :=
  match i.op with
  | .branch successors =>
    demand (node.ports.ctrlOut = successors) (.malformedEdge .control id i.block .branchOutputs)
  | _ => .ok ()

def checkInstr (id : NodeId) (node : Node) (i : InstrNode) : Except Failure Unit := do
  if i.op.kind.isAccess then checkAccess id node i
  checkBranch id node i

def checkNode (n : Node × NodeId) : Except Failure Unit :=
  match n.1.kind with
  | .block b => g.checkBlock n.2 n.1 b
  | .loop l => g.checkLoop n.2 l
  | .instr i => checkInstr n.2 n.1 i
  | .memory _ => g.checkUnit n.2 n.1
  | .arg .. | .global .. | .const _ | .split _ => .ok ()

/-- Checks everything a finished graph promises. -/
def audit : Except Failure Unit := do
  g.checkPorts
  g.nodes.zipIdx.forM g.checkNode

end Dataflow.Graph

namespace Dataflow.Net

/-- The finished graph. -/
def finish : NetM Graph := do
  let net ← get
  attempt net.audit
  return net.toGraph

end Dataflow.Net
