import Dataflow.Net.Node
import Dataflow.Net.Refusal

/-!
# Dataflow graphs

A graph is a list of nodes and a list of edges; a node is known by its position. What edges say
about a port and what the port list of the node says are kept in step by the operations that build
graphs (`Dataflow.Net.Wiring`) and checked when a graph is finished (`Dataflow.Net.Audit`).
-/

namespace Dataflow

structure Graph where
  name : String
  nodes : List Node
  edges : List Edge
  /-- The split call with the function's arguments and first control token. -/
  entry : NodeId
deriving DecidableEq

namespace Graph

variable (g : Graph)

def node? (id : NodeId) : Option Node := g.nodes[id]?

/-- A node that must exist. -/
def node (id : NodeId) : Except Fault Node := lookup g.nodes id

/-- The neighbours in a slot of a node; a node that does not exist has none. -/
def ports (id : NodeId) (slot : Slot) : List NodeId :=
  match g.nodes[id]? with
  | some n => n.ports.get slot
  | none => []

/-! ## Queries -/

def edgesOfKind (kind : EdgeKind) : List Edge := g.edges.filter (·.kind = kind)

def hasEdge (kind : EdgeKind) (src dst : NodeId) : Bool := g.edges.any (·.joins kind src dst)

/-- The positions of the nodes with a property. -/
def nodesWhere (p : Node → Bool) : List NodeId :=
  (g.nodes.zipIdx.filter fun n => p n.1).map (·.2)

def nodesOfType (type : NodeType) : List NodeId := g.nodesWhere (·.type = type)

def nodesOfOp (kind : OpKind) : List NodeId := g.nodesWhere (·.isOp kind)

/-- The node of a block. -/
def block? (block : BlockId) : Option NodeId :=
  g.nodes.findIdx? fun n => n.block?.any (·.block = block)

/-- The node of an instruction's result. -/
def value? (id : InstId) : Option NodeId :=
  g.nodes.findIdx? fun n => n.instr?.any (·.source = some id)

/-- The slots a node accepts ports in. -/
def acceptedSlots (id : NodeId) : Except Fault (List Slot) := do
  let n ← g.node id
  return Slot.all.filter n.accepts

/-- The first position of a neighbour in a slot. -/
def portIndex (id : NodeId) (slot : Slot) (neighbor : NodeId) : Except Refusal Nat :=
  match (g.ports id slot).idxOf? neighbor with
  | some i => .ok i
  | none => .error (.badPort id slot (.neighbor neighbor))

/-! ## Text -/

def slotText (n : Node) (slot : Slot) : String :=
  if (n.ports.get slot).isEmpty then ""
  else s!"\n    {slot.name}:" ++ spaced ((n.ports.get slot).map NodeId.text)

def nodeText (n : Node × NodeId) : String :=
  s!"\n{NodeId.text n.2} {n.1.name} = {n.1.kind.text}" ++
    String.join (Slot.all.map (slotText n.1))

/-- The graph by nodes, each with its ports. -/
def text : String := s!"graph {g.name}" ++ String.join (g.nodes.zipIdx.map nodeText)

end Graph

end Dataflow
