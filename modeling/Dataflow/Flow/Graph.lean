import Dataflow.Flow.Dominator
import Dataflow.Flow.Reach

/-!
# Control flow graphs

`FlowGraph.ofFunction` collects what a function's branches say about its control flow: distinct
successors, reachable predecessors, the reverse postorder of the reachable blocks and their
immediate dominators. Blocks that the entry does not reach have successors but are nobody's
predecessor.

An edge is a back edge if its target dominates its source. An edge that goes against the reverse
postorder without being a back edge leads into the middle of a cycle; such control flow is called
irreducible.
-/

namespace Dataflow

structure FlowGraph where
  /-- Distinct targets of each block, as declared. -/
  successors : List (List BlockId)
  /-- Reachable predecessors of each block, in declaration order. -/
  predecessors : List (List BlockId)
  /-- The reachable blocks in reverse postorder. -/
  order : List BlockId
  idom : Flow.Idoms
deriving DecidableEq

namespace FlowGraph

/-- The entries of a table of lists; past its end there are none. -/
def row (table : List (List BlockId)) (b : BlockId) : List BlockId := table.getD b []

/-- The blocks the entry reaches, a block in front of everything that is only found from it. -/
def reversePostorder (successors : List (List BlockId)) : List BlockId :=
  Flow.postorder (row successors) ((List.range successors.length).erase Function.entry)
    [(Function.entry, row successors Function.entry)] []

/-- The reachable blocks that branch to each block. One block after the other, by its declared
identifier, joins the lists of its successors at their ends; unreachable blocks join none. -/
def collectPredecessors (f : Function) (successors : List (List BlockId)) (order : List BlockId) :
    List (List BlockId) :=
  f.blocks.foldl
    (fun table b =>
      if b.id ∈ order then
        (row successors b.id).foldl (fun table t => table.modify t (· ++ [b.id])) table
      else table)
    (List.replicate f.blocks.length [])

/-- The control flow graph of a function. The function needs an entry, reachable branches must lead
to existing blocks, and no block may be numbered past the end. -/
def ofFunction (f : Function) : Except Fault FlowGraph := do
  let count := f.blocks.length
  let successors := f.blocks.map fun b => b.exit.targets.eraseDups
  if count = 0 then throw .outOfBounds
  let order := reversePostorder successors
  unless order.all fun b => (row successors b).all (· < count) do throw .outOfBounds
  unless f.blocks.all fun b => b.id < count do throw .outOfBounds
  let predecessors := collectPredecessors f successors order
  let idom ← Flow.dominators count order (row predecessors)
  return { successors, predecessors, order, idom }

variable (g : FlowGraph)

/-- The number of blocks. -/
def count : Nat := g.successors.length

def succs (b : BlockId) : List BlockId := row g.successors b

def preds (b : BlockId) : List BlockId := row g.predecessors b

def isReachable (b : BlockId) : Bool := b ∈ g.order

/-- The block, its immediate dominator, and so on up. -/
def ancestors : Nat → BlockId → List BlockId
  | 0, b => [b]
  | fuel + 1, b =>
    match g.idom.get b with
    | some c => b :: ancestors fuel c
    | none => [b]

/-- Whether every way from the entry to `b` leads through `a`; nothing dominates a block that the
entry does not reach. -/
def dominates (a b : BlockId) : Bool := g.isReachable b && a ∈ g.ancestors g.count b

def isBackEdge (source target : BlockId) : Bool := g.dominates target source

/-- An edge against the order whose target does not dominate its source. -/
def isIrreducible (source target : BlockId) : Bool :=
  g.isReachable source && g.isReachable target &&
    g.order.idxOf target ≤ g.order.idxOf source && !g.dominates target source

/-- `isIrreducible` of two existing blocks. -/
def testIrreducible (source target : BlockId) : Except Fault Bool :=
  if source < g.count ∧ target < g.count then .ok (g.isIrreducible source target)
  else .error .outOfBounds

/-! ## Forward reachability -/

/-- The edges that leave a block. -/
def edgesFrom (b : BlockId) : List (BlockId × BlockId) := (g.succs b).map (b, ·)

/-- Looks for `target` along `pending` edges and then from the blocks on the stack. -/
def searchForward (target : BlockId) (unfound stack : List BlockId)
    (pending : List (BlockId × BlockId)) : Except Fault Bool :=
  match pending, stack with
  | [], [] => .ok false
  | [], b :: stack => searchForward target unfound stack (g.edgesFrom b)
  | (b, t) :: pending, stack =>
    if g.count ≤ t then .error .outOfBounds
    else if t ∈ unfound ∧ ¬ g.isBackEdge b t then
      if t = target then .ok true
      else searchForward target (unfound.erase t) (t :: stack) pending
    else searchForward target unfound stack pending
termination_by pending.length + Flow.weight (fun b => (g.succs b).length + 1) stack +
  Flow.weight (fun b => (g.succs b).length + 1) unfound
decreasing_by
  · simp only [edgesFrom, Flow.weight, List.length_map, List.length_nil]
    omega
  · rename_i h _
    have := Flow.weight_erase (fun b => (g.succs b).length + 1) h.1
    simp only [Flow.weight, List.length_cons] at this ⊢
    omega
  · simp only [List.length_cons]
    omega

/-- Whether some edges, none of them a back edge, lead from `source` to `target`. -/
def forwardReaches (source target : BlockId) : Except Fault Bool :=
  g.searchForward target (List.range g.count) [source] []

end FlowGraph

end Dataflow
