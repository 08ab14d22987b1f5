import Dataflow.Lower.Access
import Dataflow.Lower.Preheader
import Dataflow.Net.Build

/-!
# Laying out the nodes

The first half of lowering makes every node that a function needs for its blocks, arguments and
instructions, without an edge between them. Only reachable blocks are laid out, in declaration
order.
-/

namespace Dataflow

/-- A function prepared for lowering. -/
structure Plan where
  function : Function
  flow : FlowGraph
  loops : List NaturalLoop

/-- An instruction and the node made for it. -/
structure Placed where
  block : BlockId
  index : Nat
  instr : Instr
  node : NodeId
deriving DecidableEq

namespace Graph

/-- The last node with a property. -/
def lastWhere? (g : Graph) (p : Node → Bool) : Option NodeId := (g.nodesWhere p).getLast?

/-- The node that was laid out for a block. -/
def blockNode? (g : Graph) (b : BlockId) : Option NodeId :=
  g.lastWhere? fun n => n.block?.any (·.block = b)

/-- The members of the block at a node. -/
def membersOf (g : Graph) (block : NodeId) : List NodeId :=
  ((g.node? block).bind Node.block?).elim [] BlockNode.members

/-- The node of a block's exit, its last member. -/
def exitNode? (g : Graph) (b : BlockId) : Option NodeId :=
  (g.blockNode? b).bind fun n => (g.membersOf n).getLast?

end Graph

namespace Plan

variable (p : Plan)

/-- Gives loops with several entries a preheader and analyses the control flow. -/
def ofFunction (f : Function) : Except Fault Plan := do
  let function ← f.withPreheaders
  let flow ← FlowGraph.ofFunction function
  return { function, flow, loops := flow.loops }

/-- The reachable blocks, in declaration order. -/
def blocks : List Block := p.function.blocks.filter fun b => p.flow.isReachable b.id

/-! ## What cannot be lowered -/

/-- The entry cannot have phis: no control input would select their value. -/
def checkEntry : Except Failure Unit := do
  let entry ← orFault (lookup p.function.blocks Function.entry)
  if entry.phis.isEmpty then return ()
  else throw (.refused (.unsupported (.entryPhi p.function.name)))

/-- Cycles need a head that all ways into them lead through. -/
def checkEdge (edge : BlockId × BlockId) : Except Failure Unit := do
  if ← orFault (p.flow.testIrreducible edge.1 edge.2) then
    throw (.refused (.unsupported (.irreducible edge.1 edge.2)))

def check : Except Failure Unit := do
  p.checkEntry
  (p.blocks.flatMap fun b => p.flow.edgesFrom b.id).forM p.checkEdge

/-! ## Blocks and arguments -/

/-- How a block is entered. -/
def mode (b : BlockId) : BlockMode :=
  if p.loops.any (·.header = b) then .loopHead
  else if 1 < (p.flow.preds b).length then .masked
  else .plain

/-- One node for each reachable block. -/
def layBlocks : NetM Unit :=
  p.blocks.forM fun b => do let _ ← Net.addBlock b.id (p.mode b.id)

def layArguments : NetM Unit := do
  let net ← get
  p.function.params.forM fun _ => do let _ ← Net.addArgument net.entry

/-! ## Instructions -/

/-- The node of a block, which must be reachable. -/
def blockNode (b : BlockId) : NetM NodeId := do
  match (← get).blockNode? b with
  | some n => return n
  | none => Net.refuse (.unsupported (.unreachable b))

/-- The operation of an instruction; a phi's inputs are ordered by the predecessors of its block,
and a call passes its arguments through `split`. -/
def opcode (parent split : NodeId) (b : BlockId) : Instr → Opcode
  | .phi .. => .phi parent (p.flow.preds b)
  | .binary _ op _ _ => .binary op
  | .icmp _ pred _ _ => .icmp pred
  | .select .. => .select
  | .alloca _ ty count => .alloca ty count
  | .gep .. => .gep
  | .load _ ty _ => .load ty none
  | .store .. => .store none
  | .cast _ op _ ty => .cast op ty
  | .call _ callee _ => .call callee split

/-- The split call of a call, with one argument for each that is passed. Other instructions need
none. -/
def laySplit (parent : NodeId) : Instr → NetM NodeId
  | .call _ _ args => do
    let split ← Net.addSplit
    args.forM fun _ => do let _ ← Net.addArgument split
    return split
  | _ => return parent

def layInstr (parent : NodeId) (b : BlockId) (i : Instr × Nat) : NetM Placed := do
  let split ← laySplit parent i.1
  let node ← Net.addInstr parent (p.opcode parent split b i.1) i.1.result?
  return { block := b, index := i.2, instr := i.1, node }

def layExit (parent : NodeId) (b : Block) : NetM Unit := do
  match b.exit with
  | .ret _ => let _ ← Net.addInstr parent .ret none
  | .jump _ | .branch .. =>
    let successors ← (p.flow.succs b.id).mapM blockNode
    let _ ← Net.addInstr parent (.branch successors) none

def layBlock (b : Block) : NetM (List Placed) := do
  let parent ← blockNode b.id
  let placed ← b.body.zipIdx.mapM (p.layInstr parent b.id)
  p.layExit parent b
  return placed

/-- Makes every node for blocks, arguments and instructions. -/
def layOut : NetM (List Placed) := do
  p.layBlocks
  p.layArguments
  return (← p.blocks.mapM p.layBlock).flatten

end Plan

namespace Placed

/-- The memory access at a node. -/
def access? (q : Placed) : Option Access :=
  match q.instr with
  | .load _ _ addr => some ⟨.load, q.node, q.block, q.index, addr⟩
  | .store addr _ => some ⟨.store, q.node, q.block, q.index, addr⟩
  | _ => none

end Placed

end Dataflow
