import Dataflow.Net.Graph

/-!
# Edges and ports together

The two changes to the edges of a graph. `Graph.link` adds an edge at the end of the port lists it
lands in; `Graph.unlink` removes one and moves the ports behind it up. Both change edges and ports
in step. `Graph.edgeDefect?` says why two nodes cannot be joined by a kind of edge.
-/

namespace Dataflow.Graph

variable (g : Graph)

/-- Changes a node, if it exists. -/
def modifyNode (id : NodeId) (f : Node → Node) : Graph := { g with nodes := g.nodes.modify id f }

/-- Changes the port list in a slot of a node. -/
def modifyPorts (id : NodeId) (slot : Slot) (f : List NodeId → List NodeId) : Graph :=
  g.modifyNode id fun n => { n with ports := n.ports.modify slot f }

/-- Changes what a node is, and leaves its ports. -/
def modifyKind (id : NodeId) (f : NodeKind → NodeKind) : Graph :=
  g.modifyNode id fun n => { n with kind := f n.kind }

/-! ## Which edges are possible -/

/-- Why an access cannot be joined to a unit: an edge of the expected kind only goes to the unit the
access is bound to, and only once. -/
def accessDefect? (access : Node) (unit : NodeId) (expected : AccessKind) (slot : Slot) :
    Option EdgeDefect :=
  if access.access? ≠ some expected then some .wrongAccess
  else if access.instr?.bind (·.op.memory?) ≠ some unit then some .otherUnit
  else if access.ports.get slot ≠ [] then some .alreadyServed
  else none

/-- What a kind of edge asks of its ends beyond having ports for it. -/
def kindDefect? (kind : EdgeKind) (src dst : NodeId) (source target : Node) : Option EdgeDefect :=
  match kind with
  | .mask => if source.type = .block then none else some .maskNotFromBlock
  | .dependency => if source.type = .block then some .dependencyFromBlock else none
  | .memoryRead => accessDefect? source dst .load .memReq
  | .memoryWrite => accessDefect? source dst .store .memReq
  | .memoryToData => accessDefect? target src .load .memResp
  | .memoryToControl => accessDefect? target src .store .memResp
  | .data | .control | .dataToControl | .controlToData => none

/-- Why `src` and `dst` cannot be joined by a kind of edge. -/
def edgeDefect? (kind : EdgeKind) (src dst : NodeId) : Option EdgeDefect :=
  match g.nodes[src]?, g.nodes[dst]? with
  | some source, some target =>
    if !source.accepts kind.sourceSlot then some .noSourcePort
    else if !target.accepts kind.targetSlot then some .noTargetPort
    else kindDefect? kind src dst source target
  | _, _ => some .unknownEndpoint

/-! ## Adding and removing edges -/

/-- The edge that joins `src` and `dst` behind their other ports. Its positions are the lengths of the
two port lists and are not cut to 32 bits: exact as long as both lists have fewer than 2^32 entries. -/
def nextEdge (kind : EdgeKind) (src dst : NodeId) : Edge :=
  { kind, src, dst
    srcPort := (g.ports src kind.sourceSlot).length
    dstPort := (g.ports dst kind.targetSlot).length }

/-- Joins `src` and `dst` by an edge. -/
def link (kind : EdgeKind) (src dst : NodeId) : Graph :=
  let ported := (g.modifyPorts src kind.sourceSlot (· ++ [dst])).modifyPorts dst kind.targetSlot
    (· ++ [src])
  { ported with edges := g.edges ++ [g.nextEdge kind src dst] }

/-- The better of two candidates for removal: the one with the lower target port, the earlier if
they are equal. -/
def pickLower (best : Option (Edge × Nat)) (e : Edge × Nat) : Option (Edge × Nat) :=
  match best with
  | none => some e
  | some b => if e.1.dstPort < b.1.dstPort then some e else some b

/-- The edge to remove between two nodes, with its position. -/
def findEdge? (kind : EdgeKind) (src dst : NodeId) : Option (Edge × Nat) :=
  (g.edges.zipIdx.filter fun e => e.1.joins kind src dst).foldl pickLower none

/-- A port index after the port at `removed` is gone. -/
def shift (removed port : Nat) : Nat := if removed < port then port - 1 else port

/-- An edge after the ports of `gone` are gone. -/
def closeUp (gone e : Edge) : Edge :=
  { e with
    srcPort := if e.src = gone.src ∧ e.kind.sourceSlot = gone.kind.sourceSlot then
      shift gone.srcPort e.srcPort else e.srcPort
    dstPort := if e.dst = gone.dst ∧ e.kind.targetSlot = gone.kind.targetSlot then
      shift gone.dstPort e.dstPort else e.dstPort }

/-- Removes the edge `gone`, which stands at position `i`. -/
def unlinkAt (gone : Edge) (i : Nat) : Graph :=
  let ported := (g.modifyPorts gone.src gone.kind.sourceSlot (·.eraseIdx gone.srcPort)).modifyPorts
    gone.dst gone.kind.targetSlot (·.eraseIdx gone.dstPort)
  { ported with edges := (g.edges.eraseIdx i).map (closeUp gone) }

/-- Removes one edge between two nodes, if there is one. -/
def unlink (kind : EdgeKind) (src dst : NodeId) : Graph :=
  match g.findEdge? kind src dst with
  | some (gone, i) => g.unlinkAt gone i
  | none => g

end Dataflow.Graph
