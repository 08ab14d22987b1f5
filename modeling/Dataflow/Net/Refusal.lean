import Dataflow.Fault
import Dataflow.Net.Slot

/-!
# Refusals

A `Refusal` is what an operation declines as part of its contract, with the reason. Together with
the faults of `Dataflow.Fault` it makes up the ways an operation can fail (`Failure`).
-/

namespace Dataflow

/-- What a port was looked up by. -/
inductive PortQuery
  | neighbor (node : NodeId)
  | index (position : Nat)
  /-- The node has no such ports at all. -/
  | missing
  /-- The graph has no such node. -/
  | foreign
deriving DecidableEq

def PortQuery.text : PortQuery → String
  | .neighbor node => s!"connected to {NodeId.text node}"
  | .index position => s!"at index {position}"
  | .missing => "of that kind"
  | .foreign => "in this graph"

/-- What is wrong with an edge, or with the ports that edges of its kind land in. -/
inductive EdgeDefect
  | unknownEndpoint
  | noSourcePort
  | noTargetPort
  | maskNotFromBlock
  | dependencyFromBlock
  | wrongAccess
  | otherUnit
  | alreadyServed
  | notAnAccess
  | notAUnit
  | outOfSync
  | portWithoutEdge
  | missingMask
  | phiInputCount
  | phiFanIn
  | controlOrder
  | branchOutputs
  | unbalanced
  | unanswered
deriving DecidableEq

def EdgeDefect.text : EdgeDefect → String
  | .unknownEndpoint => "unknown endpoint"
  | .noSourcePort => "source has no port for this kind of edge"
  | .noTargetPort => "target has no port for this kind of edge"
  | .maskNotFromBlock => "masks come from blocks"
  | .dependencyFromBlock => "blocks only produce masks"
  | .wrongAccess => "wrong kind of access for this edge"
  | .otherUnit => "access is bound to a different memory unit"
  | .alreadyServed => "access already has a port on its memory unit"
  | .notAnAccess => "not a memory access"
  | .notAUnit => "not a memory unit"
  | .outOfSync => "ports out of sync with edge"
  | .portWithoutEdge => "port entries without an edge"
  | .missingMask => "member is missing its mask"
  | .phiInputCount => "one phi input per predecessor"
  | .phiFanIn => "phi has more inputs than its block"
  | .controlOrder => "control input order disagrees with phi inputs"
  | .branchOutputs => "branch outputs disagree with its successors"
  | .unbalanced => "requests and responses out of balance"
  | .unanswered => "request without a matching response"

inductive LoopDefect
  | missingHead
  | headNotMember
  | missingLatch
  | latchNotMember (latch : NodeId)
  /-- Several back edges that nobody has merged. -/
  | ambiguousLatches (count : Nat)
  /-- The head needs exactly one edge from outside the loop. -/
  | entryCount (count : Nat)
  | fanIn (expected found : Nat)
deriving DecidableEq

def LoopDefect.text : LoopDefect → String
  | .missingHead => "no head"
  | .headNotMember => "head is not one of the loop's blocks"
  | .missingLatch => "no latch"
  | .latchNotMember latch => s!"latch {NodeId.text latch} is not one of the loop's blocks"
  | .ambiguousLatches count => s!"{count} unmerged latches"
  | .entryCount count => s!"{count} entry edges into the head"
  | .fanIn expected found => s!"head fan-in is {found}, expected {expected}"

/-- A function that no graph can represent. -/
inductive Unsupported
  | entryPhi (function : String)
  | irreducible (source target : BlockId)
  | notAParam (index : Nat) (function : String)
  | unknownGlobal (id : GlobalId)
  | undefinedValue (id : InstId)
  | missingEntry (dest : InstId) (pred : BlockId)
  | unreachable (block : BlockId)
deriving DecidableEq

def Unsupported.text : Unsupported → String
  | .entryPhi function => s!"phi in entry block of `{function}`"
  | .irreducible source target =>
    s!"irreducible control flow from {BlockId.text source} into {BlockId.text target}"
  | .notAParam index function => s!"{(Value.arg index).text} is not a parameter of `{function}`"
  | .unknownGlobal id => s!"unknown global {GlobalId.text id}"
  | .undefinedValue id => s!"{InstId.text id} is not defined in a reachable block"
  | .missingEntry dest pred => s!"{InstId.text dest} has no value for {BlockId.text pred}"
  | .unreachable block => s!"{BlockId.text block} is unreachable"

inductive Refusal
  | badPort (node : NodeId) (slot : Slot) (query : PortQuery)
  | malformedEdge (kind : EdgeKind) (src dst : NodeId) (defect : EdgeDefect)
  | unresolvedLoop (node : NodeId) (defect : LoopDefect)
  | unboundAccess (node : NodeId)
  | unactivated (node block : NodeId)
  | unsupported (input : Unsupported)
deriving DecidableEq

def Refusal.message : Refusal → String
  | .badPort node slot query => s!"{NodeId.text node} has no {slot.name} port {query.text}"
  | .malformedEdge kind src dst defect =>
    s!"malformed {kind.name} edge {NodeId.text src} -> {NodeId.text dst}: {defect.text}"
  | .unresolvedLoop node defect => s!"unresolved loop {NodeId.text node}: {defect.text}"
  | .unboundAccess node => s!"memory access {NodeId.text node} is not bound to a memory unit"
  | .unactivated node block =>
    s!"{NodeId.text node} can fire without being activated by its block {NodeId.text block}"
  | .unsupported input => s!"unsupported input: {input.text}"

/-- How an operation can fail. -/
inductive Failure
  | refused (refusal : Refusal)
  | fault (cause : Fault)
deriving DecidableEq

/-- A result that can only be a fault, among those that can also be refused. -/
def orFault {α : Type} : Except Fault α → Except Failure α
  | .ok a => .ok a
  | .error f => .error (.fault f)

end Dataflow
