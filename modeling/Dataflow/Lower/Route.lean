import Dataflow.Lower.Layout

/-!
# Routing control, masks and data

The second half of lowering joins the nodes that were laid out. A branch feeds its successors in
declaration order, so that control input `i` of a block comes from its predecessor `i`. Values that
are not results of instructions (globals and constants) get their node when they are first read.
-/

namespace Dataflow

namespace Graph

/-- The calls of a graph, each with its split call. -/
def calls (g : Graph) : List (NodeId × NodeId) :=
  g.nodes.zipIdx.filterMap fun n =>
    match n.1.kind with
    | .instr { op := .call _ split, .. } => some (n.2, split)
    | _ => none

/-- The argument of the function at a position. -/
def argNode? (g : Graph) (index : Nat) : Option NodeId :=
  match (g.node? g.entry).map Node.kind with
  | some (.split arguments) => arguments[index]?
  | _ => none

/-- The node of an instruction's result. -/
def resultNode? (g : Graph) (id : InstId) : Option NodeId :=
  g.lastWhere? fun n => n.instr?.any (·.source = some id)

/-- The node of a global. -/
def globalNode? (g : Graph) (id : GlobalId) : Option NodeId :=
  g.nodes.findIdx? fun n =>
    match n.kind with
    | .global id' _ => id' = id
    | _ => false

/-- The node of a constant. -/
def constNode? (g : Graph) (c : Constant) : Option NodeId :=
  g.nodes.findIdx? fun n => n.kind = .const c

/-- The memory unit of a region. -/
def unitNode? (g : Graph) (region : Region) : Option NodeId :=
  g.nodes.findIdx? fun n => n.kind = .memory region

end Graph

namespace Plan

variable (p : Plan)

/-! ## Control -/

/-- Whether the edge between two blocks is the one that activates its target: the first edge into it
that is not a back edge. -/
def activates (b succ : BlockId) : Bool :=
  (p.flow.preds succ).find? (fun pred => !p.flow.isBackEdge pred succ) = some b

def routeEdge (b : BlockId) (branch : NodeId) (succ : BlockId) : NetM Unit := do
  let target ← blockNode succ
  if p.activates b succ then Net.activate target branch else Net.connect .control branch target

/-- Feeds the successors of a block. -/
def routeExit (b : Block) : NetM Unit := do
  if let some branch := (← get).exitNode? b.id then
    (p.flow.succs b.id).forM (p.routeEdge b.id branch)

/-- Lets a block fire its members. -/
def routeMembers (b : BlockId) : NetM Unit := do
  let net ← get
  if let some parent := net.blockNode? b then
    (net.membersOf parent).forM (Net.connect .control parent)

def routeControl : NetM Unit := do
  let entry ← blockNode Function.entry
  Net.activate entry (← get).entry
  p.blocks.forM p.routeExit
  (List.range p.flow.count).forM routeMembers
  (← get).calls.forM fun c => Net.connect .control c.1 c.2

/-! ## Values -/

/-- The node a value comes from. -/
def valueNode (v : Value) : NetM NodeId := do
  let net ← get
  match v with
  | .arg index =>
    match net.argNode? index with
    | some n => return n
    | none => Net.refuse (.unsupported (.notAParam index p.function.name))
  | .global id =>
    match net.globalNode? id, p.function.globals[id]? with
    | some n, _ => return n
    | none, some g => Net.addGlobal id g.name
    | none, none => Net.refuse (.unsupported (.unknownGlobal id))
  | .const c =>
    match net.constNode? c with
    | some n => return n
    | none => Net.addConst c
  | .inst id =>
    match net.resultNode? id with
    | some n => return n
    | none => Net.refuse (.unsupported (.undefinedValue id))

/-! ## Masks -/

/-- The condition that decided how control got to a block: that of the branch at its immediate
dominator. -/
def maskCondition? (b : BlockId) : Option Value :=
  match ((p.flow.idom.get b).bind (p.function.blocks[·]?)).map Block.exit with
  | some (.branch cond t e) => if t = e then none else some cond
  | _ => none

/-- Whether a member is told the way control came. -/
def needsMask (b : BlockId) (net : Net) (member : NodeId) : Bool :=
  p.mode b = .masked || (net.node? member).any (·.isOp .phi)

def routeMask (b : Block) : NetM Unit := do
  let parent ← blockNode b.id
  if p.mode b.id = .masked then
    if let some cond := p.maskCondition? b.id then
      Net.setMaskSource parent (← p.valueNode cond)
  let net ← get
  ((net.membersOf parent).filter (p.needsMask b.id net)).forM (Net.connect .mask parent)

/-! ## Data -/

/-- The value a phi takes on arrival from a predecessor. -/
def entryFor (dest : InstId) (incoming : List (BlockId × Value)) (pred : BlockId) :
    Except Failure Value :=
  match incoming.find? (·.1 = pred) with
  | some entry => .ok entry.2
  | none => .error (.refused (.unsupported (.missingEntry dest pred)))

/-- The values an instruction reads, a phi's in the order of the predecessors of its block. -/
def inputs (b : BlockId) (i : Instr) : Except Failure (List Value) :=
  match i with
  | .phi dest _ incoming => (p.flow.preds b).mapM (entryFor dest incoming)
  | _ => .ok i.operands

def feed (node : NodeId) (v : Value) : NetM Unit := do
  Net.connect .data (← p.valueNode v) node

def routeInstr (b : BlockId) (i : Instr × NodeId) : NetM Unit := do
  let values ← Net.attempt (p.inputs b i.1)
  values.forM (p.feed i.2)

def routeData (placed : List Placed) (b : Block) : NetM Unit := do
  let members := (placed.filter (·.block = b.id)).map Placed.node
  (b.body.zip members).forM (p.routeInstr b.id)
  if let some exit := (← get).exitNode? b.id then
    b.exit.operands.forM (p.feed exit)

/-- Everything but memory and loops. -/
def route (placed : List Placed) : NetM Unit := do
  p.routeControl
  p.blocks.forM p.routeMask
  p.blocks.forM (p.routeData placed)

end Plan

end Dataflow
