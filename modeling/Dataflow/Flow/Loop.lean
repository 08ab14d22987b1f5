import Dataflow.Flow.Graph
import Dataflow.Sort

/-!
# Natural loops

A block with a back edge into it heads a natural loop: the sources of its back edges are the
latches, and the body is everything that can reach a latch without going through the header.
-/

namespace Dataflow

structure NaturalLoop where
  header : BlockId
  /-- Sources of the back edges, in declaration order. -/
  latches : List BlockId
  /-- All blocks of the loop, the header among them, in declaration order. -/
  body : List BlockId
deriving DecidableEq

namespace NaturalLoop

/-- Whether a block is in the loop, by a search in the sorted body. -/
def contains (l : NaturalLoop) (b : BlockId) : Bool := bisect l.body b

/-- Larger loops come first, and loops of one size by their headers. A loop inside another one has
the smaller body, so it comes after it. -/
def before (a b : NaturalLoop) : Bool :=
  b.body.length < a.body.length || (a.body.length == b.body.length && a.header ≤ b.header)

end NaturalLoop

namespace FlowGraph

variable (g : FlowGraph)

/-- The sources of the back edges into a block. -/
def latches (header : BlockId) : List BlockId :=
  (g.preds header).filter (g.isBackEdge · header)

/-- The header and what reaches a latch without going through it. -/
def loopBody (header : BlockId) : List BlockId :=
  let inside := Flow.gather g.preds ((List.range g.count).erase header) (g.latches header)
  (List.range g.count).filter fun b => b = header ∨ b ∈ inside

/-- The loop that a block heads. -/
def loopAt (header : BlockId) : NaturalLoop :=
  { header, latches := g.latches header, body := g.loopBody header }

/-- Every natural loop, outer loops before the loops they contain. -/
def loops : List NaturalLoop :=
  sortBy NaturalLoop.before ((g.order.filter fun b => !(g.latches b).isEmpty).map g.loopAt)

/-- The predecessors through which control enters a loop. -/
def entries (l : NaturalLoop) : List BlockId := (g.preds l.header).filter fun p => !l.contains p

end FlowGraph

end Dataflow
