import Dataflow.Net.Graph

/-!
# Rendering

A `Dialect` turns nodes and ports into text. The functions below decide which ports are meant:
those of control, data and masks, on the way in or out, all of them or the one at an index. A node
that has no such ports is refused, and so is one the graph does not own. `listing` renders the
whole graph, every node and then every edge.
-/

namespace Dataflow

/-- The format a dialect aims at. -/
inductive Format
  | scala | dot | json
deriving DecidableEq

namespace Format

def all : List Format := [.scala, .dot, .json]

def name : Format → String
  | .scala => "Scala"
  | .dot => "Dot"
  | .json => "Json"

end Format

structure Dialect where
  format : Format
  /-- Declares a node. -/
  definition : Graph → NodeId → Node → Except Fault String
  port : Graph → PortRef → Except Fault String
  /-- Joins several ports. -/
  list : List String → String

namespace Dialect

/-- The text of an instruction's definition. -/
def opText (op : Opcode) : String :=
  match op with
  | .alloca ty count => s!"alloca {ty.text} x {count}"
  | .load ty _ => s!"load {ty.text}"
  | .cast _ ty => s!"{op.name} to {ty.text}"
  | .icmp pred => s!"icmp {pred.name}"
  | .call callee _ => s!"call {callee}"
  | _ => op.name

/-- What a node is, for a reader. -/
def bodyText (g : Graph) : NodeKind → Except Fault String
  | .block b => .ok s!"block {BlockId.text b.block} {b.mode.name}"
  | .loop l => do
    let head ← match l.head with
      | some head => Node.name <$> g.node head
      | none => .ok "?"
    return s!"loop head={head} blocks={l.blocks.length}"
  | .instr i => .ok (opText i.op)
  | .arg index _ => .ok s!"argument {index}"
  | .global _ symbol => .ok s!"global {symbol}"
  | .const c => .ok s!"const {c.text}"
  | .memory region => .ok s!"memory {Region.text region}"
  | .split arguments => .ok s!"split {arguments.length}"

/-- The neutral form, by the names of the nodes. -/
def plain (format : Format) : Dialect where
  format := format
  definition g _ n := do
    let body ← bodyText g n.kind
    return s!"{n.name} = {body}"
  port g p := do
    let n ← g.node p.node
    return s!"{n.name}.{p.slot.name}[{p.index}]"
  list := ", ".intercalate

/-- The form by the identifiers of the nodes. -/
def byId : Dialect where
  format := .json
  definition _ id n := .ok s!"{NodeId.text id}: {n.type.name} {n.kind.text}"
  port _ p := .ok p.text
  list ports := "<" ++ "|".intercalate ports ++ ">"

end Dialect

namespace Graph

variable (g : Graph)

/-- What a rendering gives: text, or a refusal, unless it meets a fault. -/
abbrev Rendered := Except Failure String

def noPort {α : Type} (id : NodeId) (slot : Slot) (query : PortQuery) : Except Failure α :=
  .error (.refused (.badPort id slot query))

/-- A node of this graph. -/
def owned (id : NodeId) (slot : Slot) : Except Failure Node :=
  match g.node? id with
  | some n => .ok n
  | none => noPort id slot .foreign

/-- All ports in a slot of a node. -/
def portsOf (id : NodeId) (n : Node) (slot : Slot) : List PortRef :=
  (List.range (n.ports.get slot).length).map (⟨id, slot, ·⟩)

/-- All ports, or the one at an index. -/
def select (ports : List PortRef) (id : NodeId) (slot : Slot) : Option Nat →
    Except Failure (List PortRef)
  | none => .ok ports
  | some i =>
    match ports[i]? with
    | some p => .ok [p]
    | none => noPort id slot (.index i)

/-- Renders the chosen ports. -/
def render (d : Dialect) (ports : List PortRef) : Rendered :=
  orFault (d.list <$> ports.mapM (d.port g))

/-- Chooses among the ports and renders them. -/
def renderAt (d : Dialect) (ports : List PortRef) (id : NodeId) (slot : Slot)
    (index : Option Nat) : Rendered := do
  g.render d (← select ports id slot index)

/-- The declaration of a node; there is none for a node the graph does not own. -/
def definition (id : NodeId) (d : Dialect) : Option (Except Fault String) :=
  (g.node? id).map (d.definition g id)

/-- The control tokens a node waits for. A loop waits for those of its head. -/
def inputEnable (id : NodeId) (index : Option Nat) (d : Dialect) : Rendered := do
  let n ← g.owned id .ctrlIn
  match n.kind with
  | .block _ | .instr _ | .split _ => g.renderAt d (portsOf id n .ctrlIn) id .ctrlIn index
  | .loop l =>
    match l.head with
    | some head =>
      let h ← orFault (g.node head)
      g.renderAt d (portsOf head h .ctrlIn) id .ctrlIn index
    | none => noPort id .ctrlIn .missing
  | .arg .. | .global .. | .const _ | .memory _ => noPort id .ctrlIn .missing

/-- The exits of a loop's latches. -/
def latchExits (l : LoopNode) : Except Fault (List NodeId) := do
  let latches ← l.latches.mapM g.node
  return (latches.filterMap Node.block?).filterMap (·.instructions.getLast?)

/-- The control tokens a node fires. For a loop they are what its latches decide. -/
def outputEnable (id : NodeId) (index : Option Nat) (d : Dialect) : Rendered := do
  let n ← g.owned id .ctrlOut
  match n.kind with
  | .block _ | .split _ => g.renderAt d (portsOf id n .ctrlOut) id .ctrlOut index
  | .instr i =>
    if i.op.kind.accepts .ctrlOut then
      g.renderAt d (portsOf id n .ctrlOut) id .ctrlOut index
    else noPort id .ctrlOut .missing
  | .loop l =>
    let exits ← orFault (g.latchExits l)
    if exits.isEmpty then noPort id .ctrlOut .missing
    else
      let ports ← orFault (exits.mapM fun e => do return portsOf e (← g.node e) .ctrlOut)
      g.renderAt d ports.flatten id .ctrlOut index
  | .arg .. | .global .. | .const _ | .memory _ => noPort id .ctrlOut .missing

/-- The values a node reads. -/
def inputData (id : NodeId) (index : Option Nat) (d : Dialect) : Rendered := do
  let n ← g.owned id .dataIn
  match n.kind with
  | .block _ => g.renderAt d (portsOf id n .dataIn) id .dataIn index
  | .instr i =>
    if i.op.kind.accepts .dataIn then g.renderAt d (portsOf id n .dataIn) id .dataIn index
    else noPort id .dataIn .missing
  | .loop _ | .arg .. | .global .. | .const _ | .memory _ | .split _ =>
    noPort id .dataIn .missing

/-- The values a node produces. A split call produces its arguments, whether they are read or not.
-/
def outputData (id : NodeId) (index : Option Nat) (d : Dialect) : Rendered := do
  let n ← g.owned id .dataOut
  match n.kind with
  | .arg .. | .global .. | .const _ => g.renderAt d (portsOf id n .dataOut) id .dataOut index
  | .instr i =>
    if i.op.kind.accepts .dataOut then g.renderAt d (portsOf id n .dataOut) id .dataOut index
    else noPort id .dataOut .missing
  | .split arguments =>
    g.renderAt d ((List.range arguments.length).map (⟨id, .dataOut, ·⟩)) id .dataOut index
  | .block _ | .loop _ | .memory _ => noPort id .dataOut .missing

/-- The port through which a neighbour is connected. -/
def renderNeighbor (id : NodeId) (slot : Slot) (neighbor : NodeId) (d : Dialect) : Rendered :=
  match g.portIndex id slot neighbor with
  | .ok index => orFault (d.port g ⟨id, slot, index⟩)
  | .error r => .error (.refused r)

/-- The mask that selects a phi's input. -/
def maskInput (id : NodeId) (d : Dialect) : Rendered := do
  let n ← g.owned id .depIn
  match n.instr?.bind (·.op.mask?) with
  | some mask => g.renderNeighbor id .depIn mask d
  | none => noPort id .depIn .missing

/-- The masks a block hands to its members. -/
def maskOutput (id : NodeId) (index : Option Nat) (d : Dialect) : Rendered := do
  let n ← g.owned id .depOut
  if n.block?.isSome then g.renderAt d (portsOf id n .depOut) id .depOut index
  else noPort id .depOut .missing

/-- The control input that activates a block. -/
def activateEnable (id : NodeId) (d : Dialect) : Rendered := do
  let n ← g.owned id .ctrlIn
  match n.block?.bind (·.activate) with
  | some src => g.renderNeighbor id .ctrlIn src d
  | none => noPort id .ctrlIn .missing

/-! ## The whole graph -/

def nodeLine (d : Dialect) (n : Node × NodeId) : Except Fault String := do
  return (← d.definition g n.2 n.1) ++ "\n"

def edgeLine (d : Dialect) (e : Edge) : Except Fault String := do
  let source ← d.port g e.source
  let target ← d.port g e.target
  return source ++ " -> " ++ target ++ "\n"

/-- Every node and then every edge, one to a line. -/
def listing (d : Dialect) : Except Fault String := do
  let nodes ← g.nodes.zipIdx.mapM (g.nodeLine d)
  let edges ← g.edges.mapM (g.edgeLine d)
  return String.join nodes ++ String.join edges

end Graph

end Dataflow
