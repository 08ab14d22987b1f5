import Dataflow.Ident

/-!
# Slots and edges

The ports of a node are grouped into slots, each an ordered list of neighbours. An edge is of one of
ten kinds; the kind says in which slot of its source and in which slot of its target it lands. Every
slot is written from one side only: outputs, responses and the requests of a memory access by edges
that leave the node, all other slots by edges that arrive.
-/

namespace Dataflow

/-- One ordered list of ports on a node. -/
inductive Slot
  | dataIn | dataOut
  | ctrlIn | ctrlOut
  | depIn | depOut
  /-- On a load or store, towards its memory unit. -/
  | memReq
  /-- On a load or store, from its memory unit. -/
  | memResp
  | readReq | readResp
  | writeReq | writeResp
deriving DecidableEq

namespace Slot

def all : List Slot :=
  [.dataIn, .dataOut, .ctrlIn, .ctrlOut, .depIn, .depOut, .memReq, .memResp, .readReq, .readResp,
    .writeReq, .writeResp]

def name : Slot → String
  | .dataIn => "data_in"
  | .dataOut => "data_out"
  | .ctrlIn => "ctrl_in"
  | .ctrlOut => "ctrl_out"
  | .depIn => "dep_in"
  | .depOut => "dep_out"
  | .memReq => "mem_req"
  | .memResp => "mem_resp"
  | .readReq => "read_req"
  | .readResp => "read_resp"
  | .writeReq => "write_req"
  | .writeResp => "write_resp"

/-- Whether the slot is written by edges that leave its node. -/
def isSourceSide : Slot → Bool
  | .dataOut | .ctrlOut | .depOut | .memReq | .readResp | .writeResp => true
  | .dataIn | .ctrlIn | .depIn | .memResp | .readReq | .writeReq => false

end Slot

/-- One port of one node. -/
structure PortRef where
  node : NodeId
  slot : Slot
  index : Nat
deriving DecidableEq

def PortRef.text (p : PortRef) : String := s!"{NodeId.text p.node}.{p.slot.name}[{p.index}]"

inductive EdgeKind
  | data
  | control
  | dataToControl
  | controlToData
  /-- Tells a member of a block which predecessor the block was entered from. -/
  | mask
  /-- Ordering only, such as a store that has to finish before a load that may read from it. -/
  | dependency
  | memoryRead
  | memoryWrite
  | memoryToData
  | memoryToControl
deriving DecidableEq

namespace EdgeKind

def all : List EdgeKind :=
  [.data, .control, .dataToControl, .controlToData, .mask, .dependency, .memoryRead, .memoryWrite,
    .memoryToData, .memoryToControl]

def name : EdgeKind → String
  | .data => "Data"
  | .control => "Control"
  | .dataToControl => "DataToControl"
  | .controlToData => "ControlToData"
  | .mask => "Mask"
  | .dependency => "Dependency"
  | .memoryRead => "MemoryRead"
  | .memoryWrite => "MemoryWrite"
  | .memoryToData => "MemoryToData"
  | .memoryToControl => "MemoryToControl"

/-- The slot of the source that an edge lands in. -/
def sourceSlot : EdgeKind → Slot
  | .data | .dataToControl => .dataOut
  | .control | .controlToData => .ctrlOut
  | .mask | .dependency => .depOut
  | .memoryRead | .memoryWrite => .memReq
  | .memoryToData => .readResp
  | .memoryToControl => .writeResp

/-- The slot of the target that an edge lands in. -/
def targetSlot : EdgeKind → Slot
  | .data | .controlToData => .dataIn
  | .control | .dataToControl => .ctrlIn
  | .mask | .dependency => .depIn
  | .memoryRead => .readReq
  | .memoryWrite => .writeReq
  | .memoryToData | .memoryToControl => .memResp

/-- Whether edges of this kind land in a slot, on either side. -/
def uses (k : EdgeKind) (s : Slot) : Bool := k.sourceSlot = s || k.targetSlot = s

@[simp] theorem isSourceSide_sourceSlot (k : EdgeKind) : k.sourceSlot.isSourceSide = true := by
  cases k <;> rfl

@[simp] theorem isSourceSide_targetSlot (k : EdgeKind) : k.targetSlot.isSourceSide = false := by
  cases k <;> rfl

theorem sourceSlot_ne_targetSlot (k k' : EdgeKind) : k.sourceSlot ≠ k'.targetSlot := fun h => by
  have := isSourceSide_sourceSlot k
  rw [h, isSourceSide_targetSlot] at this
  cases this

end EdgeKind

/-- A connection. `srcPort` is the position of the target in the source's slot, `dstPort` that of
the source in the target's slot. On a machine the two are words of 32 bits. Here they are numbers of
any size, which is exact for port lists of fewer than 2^32 entries. -/
structure Edge where
  kind : EdgeKind
  src : NodeId
  dst : NodeId
  srcPort : Nat
  dstPort : Nat
deriving DecidableEq

namespace Edge

/-- The port the edge leaves from. -/
def source (e : Edge) : PortRef := ⟨e.src, e.kind.sourceSlot, e.srcPort⟩

/-- The port the edge arrives at. -/
def target (e : Edge) : PortRef := ⟨e.dst, e.kind.targetSlot, e.dstPort⟩

/-- Whether the edge is of a kind and joins two given nodes. -/
def joins (e : Edge) (kind : EdgeKind) (src dst : NodeId) : Bool :=
  e.kind = kind && e.src = src && e.dst = dst

def text (e : Edge) : String := s!"{e.kind.name}: {e.source.text} -> {e.target.text}"

end Edge

end Dataflow
