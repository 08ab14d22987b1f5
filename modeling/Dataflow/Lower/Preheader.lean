import Dataflow.Flow.Loop

/-!
# Preheaders

A loop that control enters from several blocks is given a new block, its preheader, that merges
these entries: the entering blocks branch to the preheader, the preheader branches to the header,
and each phi of the header is split into one that merges the values from outside, in the preheader,
and one that merges this with the values from inside. Afterwards one edge enters the loop.

Functions with irreducible control flow are left as they are.
-/

namespace Dataflow

namespace Function

/-- The identifiers a function defines. -/
def results (f : Function) : List InstId := f.blocks.flatMap fun b => b.body.filterMap Instr.result?

/-- The first identifier above all that are defined. -/
def freshId (f : Function) : Except Fault InstId :=
  if f.results.all (· < idLimit) then .ok (f.results.foldl (fun n id => max n (id + 1)) 0)
  else .error .overflow

/-- What a header keeps of a phi: the entries from inside the loop, and one for the preheader. -/
def innerPhi (entries : List BlockId) (preheader : BlockId) (phi : Instr × InstId) : Instr :=
  match phi.1 with
  | .phi dest ty incoming =>
    .phi dest ty (incoming.filter (·.1 ∉ entries) ++ [(preheader, .inst phi.2)])
  | i => i

/-- What a preheader takes of a phi: the entries from outside the loop, under a fresh identifier. -/
def outerPhi (entries : List BlockId) (phi : Instr × InstId) : Instr :=
  match phi.1 with
  | .phi _ ty incoming => .phi phi.2 ty (incoming.filter (·.1 ∈ entries))
  | i => i

/-- The header with its phis cut down to the entries from inside. -/
def innerHeader (entries : List BlockId) (preheader : BlockId) (fresh : InstId) (header : Block) :
    Block :=
  { header with
    body := (header.phis.zipIdx fresh).map (innerPhi entries preheader) ++
      header.body.dropWhile Instr.isPhi }

/-- A block of the function once the entries of a loop go through a preheader. -/
def reroute (header preheader : BlockId) (entries : List BlockId) (fresh : InstId) (i : Nat)
    (b : Block) : Block :=
  let b := if i = header then innerHeader entries preheader fresh b else b
  if i ∈ entries then { b with exit := b.exit.retarget header preheader } else b

/-- The block that merges the entries of a loop. -/
def preheaderBlock (header preheader : BlockId) (entries : List BlockId) (fresh : InstId)
    (b : Block) : Block :=
  { id := preheader
    name := s!"{b.name}.preheader"
    body := (b.phis.zipIdx fresh).map (outerPhi entries)
    exit := .jump header }

/-- Gives the loop at `header` a preheader for its entries. -/
def addPreheader (f : Function) (header : BlockId) (entries : List BlockId) :
    Except Fault Function := do
  let preheader := f.blocks.length
  let fresh ← f.freshId
  let h ← lookup f.blocks header
  if idLimit < fresh + h.phis.length then throw .overflow
  return { f with
    blocks := f.blocks.mapIdx (reroute header preheader entries fresh) ++
      [preheaderBlock header preheader entries fresh h] }

end Function

namespace FlowGraph

/-- Whether some edge of a function is irreducible. -/
def hasIrreducible (g : FlowGraph) (f : Function) : Except Fault Bool :=
  f.blocks.anyM fun b => (g.succs b.id).anyM (g.testIrreducible b.id)

/-- The first loop with several entries, as its header and these entries. -/
def sharedLoop? (g : FlowGraph) : Option (BlockId × List BlockId) :=
  (g.loops.find? fun l => 1 < (g.entries l).length).map fun l => (l.header, g.entries l)

end FlowGraph

namespace Function

/-- Gives one loop after the other a preheader. -/
def addPreheaders : Nat → Function → Except Fault Function
  | 0, _ => .error .endless
  | fuel + 1, f => do
    let g ← FlowGraph.ofFunction f
    if ← g.hasIrreducible f then return f
    match g.sharedLoop? with
    | none => return f
    | some (header, entries) => addPreheaders fuel (← f.addPreheader header entries)

/-- The function with one entry to each loop. Every round leaves one loop fewer with several
entries, and a function has no more loops than blocks. -/
def withPreheaders (f : Function) : Except Fault Function :=
  addPreheaders (f.blocks.length + 1) f

end Function

end Dataflow
