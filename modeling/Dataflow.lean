import Dataflow.Constant
import Dataflow.Fault
import Dataflow.Flow.Dominator
import Dataflow.Flow.Graph
import Dataflow.Flow.Loop
import Dataflow.Flow.Reach
import Dataflow.Ident
import Dataflow.Lower.Access
import Dataflow.Lower.Layout
import Dataflow.Lower.Preheader
import Dataflow.Lower.Route
import Dataflow.Lower.Session
import Dataflow.Net.Audit
import Dataflow.Net.Build
import Dataflow.Net.Graph
import Dataflow.Net.Node
import Dataflow.Net.Ports
import Dataflow.Net.Refusal
import Dataflow.Net.Render
import Dataflow.Net.Slot
import Dataflow.Net.Wiring
import Dataflow.Proofs.Constant
import Dataflow.Proofs.Flow.Alike
import Dataflow.Proofs.Flow.Dominator
import Dataflow.Proofs.Flow.Exact
import Dataflow.Proofs.Flow.Forward
import Dataflow.Proofs.Flow.Graph
import Dataflow.Proofs.Flow.Loop
import Dataflow.Proofs.Flow.LoopNest
import Dataflow.Proofs.Flow.Nesting
import Dataflow.Proofs.Flow.Postorder
import Dataflow.Proofs.Flow.Predecessors
import Dataflow.Proofs.Flow.Redirect
import Dataflow.Proofs.Flow.Search
import Dataflow.Proofs.Flow.Settling
import Dataflow.Proofs.Flow.Tree
import Dataflow.Proofs.Flow.Walk
import Dataflow.Proofs.Lower.Accepted
import Dataflow.Proofs.Lower.Activation
import Dataflow.Proofs.Lower.Acyclic
import Dataflow.Proofs.Lower.Alike
import Dataflow.Proofs.Lower.AllWires
import Dataflow.Proofs.Lower.Alongside
import Dataflow.Proofs.Lower.Builds
import Dataflow.Proofs.Lower.Conditions
import Dataflow.Proofs.Lower.Control
import Dataflow.Proofs.Lower.Data
import Dataflow.Proofs.Lower.Dependency
import Dataflow.Proofs.Lower.Descent
import Dataflow.Proofs.Lower.History
import Dataflow.Proofs.Lower.Label
import Dataflow.Proofs.Lower.Layout
import Dataflow.Proofs.Lower.Live
import Dataflow.Proofs.Lower.Loops
import Dataflow.Proofs.Lower.Lowered
import Dataflow.Proofs.Lower.Members
import Dataflow.Proofs.Lower.Memory
import Dataflow.Proofs.Lower.Order
import Dataflow.Proofs.Lower.Ports
import Dataflow.Proofs.Lower.Preheader
import Dataflow.Proofs.Lower.PreheaderRun
import Dataflow.Proofs.Lower.Questions
import Dataflow.Proofs.Lower.Regions
import Dataflow.Proofs.Lower.Room
import Dataflow.Proofs.Lower.Rounds
import Dataflow.Proofs.Lower.Shared
import Dataflow.Proofs.Lower.Sharing
import Dataflow.Proofs.Lower.SingleEntry
import Dataflow.Proofs.Lower.Strict
import Dataflow.Proofs.Lower.Strictness
import Dataflow.Proofs.Lower.Supplied
import Dataflow.Proofs.Lower.Translation
import Dataflow.Proofs.Lower.Values
import Dataflow.Proofs.Lower.Verdict
import Dataflow.Proofs.Lower.Wires
import Dataflow.Proofs.Net.Allocation
import Dataflow.Proofs.Net.Arrivals
import Dataflow.Proofs.Net.Audit
import Dataflow.Proofs.Net.Coherent
import Dataflow.Proofs.Net.Drawing
import Dataflow.Proofs.Net.Emission
import Dataflow.Proofs.Net.InStep
import Dataflow.Proofs.Net.Membership
import Dataflow.Proofs.Net.Moves
import Dataflow.Proofs.Net.Operations
import Dataflow.Proofs.Net.PortCheck
import Dataflow.Proofs.Net.Printing
import Dataflow.Proofs.Net.Reached
import Dataflow.Proofs.Net.Rebinding
import Dataflow.Proofs.Net.Removal
import Dataflow.Proofs.Net.Rewiring
import Dataflow.Proofs.Net.Served
import Dataflow.Proofs.Net.Twin
import Dataflow.Proofs.Outcome
import Dataflow.Proofs.Repeats
import Dataflow.Proofs.Ssa.Calls
import Dataflow.Proofs.Ssa.Defects
import Dataflow.Proofs.Ssa.Performed
import Dataflow.Proofs.Ssa.Recorded
import Dataflow.Proofs.Ssa.Run
import Dataflow.Proofs.Ssa.WellFormed
import Dataflow.Proofs.Text
import Dataflow.Sort
import Dataflow.Ssa.Draft
import Dataflow.Ssa.Function
import Dataflow.Ssa.Instr
import Dataflow.Ssa.Value
import Dataflow.Ssa.WellFormed
import Dataflow.Supply
import Dataflow.Width
