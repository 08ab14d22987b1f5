import Dataflow.Net.Ports
import Dataflow.Ssa.Instr

/-!
# Nodes

A node of the dataflow graph is a block, a loop, an instruction, a value that is only read
(argument, global, constant), a memory unit, or a split call, the boundary through which arguments
are passed. Its kind says which slots it accepts ports in.
-/

namespace Dataflow

/-! ## Instructions -/

/-- The two kinds of memory access, with the edges and slots that serve them. -/
inductive AccessKind
  | load | store
deriving DecidableEq

namespace AccessKind

def name : AccessKind → String
  | .load => "Load"
  | .store => "Store"

/-- The edge from the access to its memory unit. -/
def request : AccessKind → EdgeKind
  | .load => .memoryRead
  | .store => .memoryWrite

/-- The edge from the memory unit back to the access. -/
def response : AccessKind → EdgeKind
  | .load => .memoryToData
  | .store => .memoryToControl

end AccessKind

/-- What kind of operation an instruction node performs. -/
inductive OpKind
  | binary | icmp | branch | phi | alloca | gep | load | store | cast (op : CastOp) | select | ret
  | call
deriving DecidableEq

namespace OpKind

def all : List OpKind :=
  [.binary, .icmp, .branch, .phi, .alloca, .gep, .load, .store, .cast .sext, .cast .zext,
    .cast .bitcast, .cast .trunc, .select, .ret, .call]

def name : OpKind → String
  | .binary => "Binary"
  | .icmp => "Icmp"
  | .branch => "Branch"
  | .phi => "Phi"
  | .alloca => "Alloca"
  | .gep => "GetElementPtr"
  | .load => "Load"
  | .store => "Store"
  | .cast .sext => "Sext"
  | .cast .zext => "Zext"
  | .cast .bitcast => "BitCast"
  | .cast .trunc => "Trunc"
  | .select => "Select"
  | .ret => "Return"
  | .call => "Call"

/-- What the names of nodes of this kind start with. -/
def stem : OpKind → String
  | .binary => "binaryOp"
  | .icmp => "icmp"
  | .branch => "br"
  | .phi => "phi"
  | .alloca => "alloca"
  | .gep => "gep"
  | .load => "ld"
  | .store => "st"
  | .cast op => op.name
  | .select => "select"
  | .ret => "ret"
  | .call => "call"

/-- The memory access that operations of this kind perform. -/
def access? : OpKind → Option AccessKind
  | .load => some .load
  | .store => some .store
  | _ => none

def isAccess (k : OpKind) : Bool := k.access?.isSome

/-- The slots an instruction of this kind has ports in. Memory accesses are put in order through
their dependency ports and produce no control. -/
def accepts (k : OpKind) : Slot → Bool
  | .dataIn => k ≠ .alloca
  | .dataOut => k ≠ .branch && k ≠ .store && k ≠ .ret
  | .ctrlIn | .depIn => true
  | .ctrlOut => k = .branch || k = .call
  | .depOut | .memReq | .memResp => k.isAccess
  | .readReq | .readResp | .writeReq | .writeResp => false

end OpKind

/-- The operation of an instruction node. -/
inductive Opcode
  | binary (op : BinOp)
  | icmp (pred : Predicate)
  /-- Control output `i` goes to successor `i`. -/
  | branch (successors : List NodeId)
  /-- Data input `i` is the value on arrival from predecessor `i`. -/
  | phi (mask : NodeId) (predecessors : List BlockId)
  | alloca (ty : Ty) (count : Nat)
  | gep
  | load (ty : Ty) (memory : Option NodeId)
  | store (memory : Option NodeId)
  | cast (op : CastOp) (ty : Ty)
  | select
  | ret
  | call (callee : String) (split : NodeId)
deriving DecidableEq

/-- Nodes, each after a blank. -/
def spaced (ns : List String) : String := String.join (ns.map fun n => s!" {n}")

/-- Nodes separated by blanks. -/
def nodesText (ns : List NodeId) : String := " ".intercalate (ns.map NodeId.text)

namespace Opcode

def kind : Opcode → OpKind
  | .binary _ => .binary
  | .icmp _ => .icmp
  | .branch _ => .branch
  | .phi .. => .phi
  | .alloca .. => .alloca
  | .gep => .gep
  | .load .. => .load
  | .store _ => .store
  | .cast op _ => .cast op
  | .select => .select
  | .ret => .ret
  | .call .. => .call

/-- The name of the operation: a binary operation's own, else the stem of its kind. -/
def name : Opcode → String
  | .binary op => op.name
  | op => op.kind.stem

/-- The memory unit that serves the access. -/
def memory? : Opcode → Option NodeId
  | .load _ memory | .store memory => memory
  | _ => none

/-- The access, served by a unit. -/
def withMemory (unit : NodeId) : Opcode → Opcode
  | .load ty _ => .load ty (some unit)
  | .store _ => .store (some unit)
  | op => op

/-- The block whose mask selects a phi's input. -/
def mask? : Opcode → Option NodeId
  | .phi mask _ => some mask
  | _ => none

def viaText : Option NodeId → String
  | some unit => s!" via {NodeId.text unit}"
  | none => ""

def text : Opcode → String
  | .binary op => op.name
  | .icmp pred => s!"icmp {pred.name}"
  | .branch successors => "br" ++ spaced (successors.map NodeId.text)
  | .phi mask predecessors =>
    s!"phi mask={NodeId.text mask} from" ++ spaced (predecessors.map BlockId.text)
  | .alloca ty count => s!"alloca {ty.text}, {count}"
  | .gep => "gep"
  | .load ty memory => s!"load {ty.text}" ++ viaText memory
  | .store memory => "store" ++ viaText memory
  | .cast op ty => s!"{op.name} to {ty.text}"
  | .select => "select"
  | .ret => "ret"
  | .call callee split => s!"call {callee} split={NodeId.text split}"

end Opcode

/-- An instruction, a member of a block. -/
structure InstrNode where
  op : Opcode
  block : NodeId
  /-- The value the node stands for. -/
  source : Option InstId
deriving DecidableEq

def InstrNode.text (i : InstrNode) : String := s!"{i.op.text} in {NodeId.text i.block}"

/-! ## Blocks and loops -/

inductive BlockMode
  /-- Runs once it is activated. -/
  | plain
  /-- A join: its members are told which predecessor activated it. -/
  | masked
  /-- Entered once from outside its loop and again on every back edge. -/
  | loopHead
deriving DecidableEq

namespace BlockMode

def all : List BlockMode := [.plain, .masked, .loopHead]

def name : BlockMode → String
  | .plain => "nomask"
  | .masked => "mask"
  | .loopHead => "loophead"

end BlockMode

/-- A block. Its control input `i` belongs to data input `i` of each of its phis. -/
structure BlockNode where
  block : BlockId
  mode : BlockMode
  /-- The token that fires the block. -/
  activate : Option NodeId := none
  /-- The members other than phis, in program order, the exit last. -/
  instructions : List NodeId := []
  phis : List NodeId := []
  /-- The condition that decided how control got here. -/
  maskSource : Option NodeId := none
  /-- The innermost loop around the block. -/
  parentLoop : Option NodeId := none
deriving DecidableEq

namespace BlockNode

/-- All members, phis first. -/
def members (b : BlockNode) : List NodeId := b.phis ++ b.instructions

def tagText (tag : String) : Option NodeId → String
  | some n => s!" {tag}={NodeId.text n}"
  | none => ""

def text (b : BlockNode) : String :=
  s!"block {BlockId.text b.block} {b.mode.name}" ++ tagText "activate" b.activate ++
    tagText "mask" b.maskSource ++ tagText "loop" b.parentLoop

end BlockNode

/-- A loop. It has no ports: control enters through its head and leaves through its latches. -/
structure LoopNode where
  head : Option NodeId := none
  latches : List NodeId := []
  blocks : List NodeId := []
  instructions : List NodeId := []
  /-- Several back edges have been accepted as control inputs of the head. -/
  merged : Bool := false
deriving DecidableEq

namespace LoopNode

/-- The latch, if there is exactly one. -/
def latch? (l : LoopNode) : Option NodeId :=
  match l.latches with
  | [latch] => some latch
  | _ => none

def text (l : LoopNode) : String :=
  "loop" ++ BlockNode.tagText "head" l.head ++ s!" latches=[{nodesText l.latches}]" ++
    s!" blocks=[{nodesText l.blocks}]" ++ (if l.merged then " merged" else "")

end LoopNode

/-! ## All nodes -/

inductive NodeType
  | block | loop | instr | arg | global | const | memory | split
deriving DecidableEq

namespace NodeType

def all : List NodeType := [.block, .loop, .instr, .arg, .global, .const, .memory, .split]

def name : NodeType → String
  | .block => "SuperNode"
  | .loop => "LoopNode"
  | .instr => "Instruction"
  | .arg => "FunctionArgument"
  | .global => "GlobalValue"
  | .const => "ConstantInt"
  | .memory => "MemoryUnit"
  | .split => "SplitCall"

end NodeType

inductive NodeKind
  | block (b : BlockNode)
  | loop (l : LoopNode)
  | instr (i : InstrNode)
  /-- An argument of the function or of a call, by its position in the split call. -/
  | arg (index : Nat) (owner : NodeId)
  | global (id : GlobalId) (symbol : String)
  | const (c : Constant)
  | memory (region : Region)
  | split (arguments : List NodeId)
deriving DecidableEq

namespace NodeKind

def type : NodeKind → NodeType
  | .block _ => .block
  | .loop _ => .loop
  | .instr _ => .instr
  | .arg .. => .arg
  | .global .. => .global
  | .const _ => .const
  | .memory _ => .memory
  | .split _ => .split

/-- What the names of nodes of this kind start with. -/
def stem : NodeKind → String
  | .block _ => "bb"
  | .loop _ => "loop"
  | .instr i => i.op.kind.stem
  | .arg .. => "arg"
  | .global .. => "global"
  | .const _ => "const"
  | .memory _ => "mem"
  | .split _ => "split_call"

/-- The slots a node of this kind may have ports in. A loop's ports are those of its head and
latches. -/
def accepts : NodeKind → Slot → Bool
  | .block _, s => s ∈ [Slot.ctrlIn, .ctrlOut, .dataIn, .depOut]
  | .loop _, _ => false
  | .instr i, s => i.op.kind.accepts s
  | .arg .., s | .global .., s | .const _, s => s = .dataOut
  | .memory _, s => s ∈ [Slot.readReq, .readResp, .writeReq, .writeResp]
  | .split _, s => s ∈ [Slot.ctrlIn, .ctrlOut]

def text : NodeKind → String
  | .block b => b.text
  | .loop l => l.text
  | .instr i => i.text
  | .arg index owner => s!"arg {index} of {NodeId.text owner}"
  | .global id symbol => s!"global {GlobalId.text id} ({symbol})"
  | .const c => s!"const {c.text}"
  | .memory region => s!"memory {Region.text region}"
  | .split arguments => s!"split_call [{nodesText arguments}]"

end NodeKind

/-- A node. Where it stands in its graph is its identifier. -/
structure Node where
  uid : Uid
  kind : NodeKind
  ports : Ports := {}
deriving DecidableEq

namespace Node

/-- The name of a node says what it is and is unique among the nodes that share a supply. -/
def name (n : Node) : String := s!"{n.kind.stem}_{n.uid}"

def type (n : Node) : NodeType := n.kind.type

def accepts (n : Node) (s : Slot) : Bool := n.kind.accepts s

def block? (n : Node) : Option BlockNode :=
  match n.kind with
  | .block b => some b
  | _ => none

def loop? (n : Node) : Option LoopNode :=
  match n.kind with
  | .loop l => some l
  | _ => none

def instr? (n : Node) : Option InstrNode :=
  match n.kind with
  | .instr i => some i
  | _ => none

/-- Whether the node is an instruction of a kind. -/
def isOp (n : Node) (k : OpKind) : Bool := n.instr?.any (·.op.kind = k)

/-- The memory access the node performs. -/
def access? (n : Node) : Option AccessKind := n.instr?.bind (·.op.kind.access?)

end Node

end Dataflow
