import Dataflow.Fault
import Dataflow.Sort

/-!
# Well-formed functions

`Function.check` goes through a function once for the shape of its blocks and once for its
operands, and stops at the first defect: blocks numbered by position, phis first, every identifier
defined once, branch targets that exist, an entry nothing branches to, operands that exist, and one
phi entry per predecessor.
-/

namespace Dataflow

namespace Function

/-- Adds a block to the predecessors of a target. A branch with both arms to one block is one edge,
so a block that is listed already is not listed again. -/
def addSource (source : BlockId) (sources : List BlockId) : List BlockId :=
  if source ∈ sources then sources else sources ++ [source]

/-- The blocks that branch to each block, each list ascending and without repetition. -/
def predecessors (f : Function) : Except Fault (List (List BlockId)) :=
  if f.blocks.all fun b => b.exit.targets.all (· < f.blocks.length) then
    let table := f.blocks.foldl
      (fun table b => b.exit.targets.foldl (fun table t => table.modify t (addSource b.id)) table)
      (List.replicate f.blocks.length [])
    .ok (table.map ascending)
  else .error .outOfBounds

/-! ## The shape of the blocks -/

/-- What has been seen of a function: the identifiers defined so far, and whether the current block
is past its phis. -/
structure Scan where
  defined : List InstId := []
  pastPhis : Bool := false

def scanInstr (block : BlockId) (s : Scan) (i : Instr) : Except Fault Scan := do
  if i.isPhi && s.pastPhis then throw (.illFormed (.latePhi block))
  let pastPhis := !i.isPhi
  match i.result? with
  | none => return { s with pastPhis }
  | some id =>
    if id ∈ s.defined then throw (.illFormed (.reusedId id))
    return { defined := id :: s.defined, pastPhis }

def scanTarget (count : Nat) (block target : BlockId) : Except Fault Unit :=
  if target < count then .ok () else .error (.illFormed (.unknownTarget block target))

/-- One block at its position, after `defined`. -/
def scanBlock (count : Nat) (defined : List InstId) (b : Block × Nat) :
    Except Fault (List InstId) := do
  if b.1.id ≠ b.2 then throw (.illFormed .misplacedBlock)
  let s ← b.1.body.foldlM (scanInstr b.1.id) { defined }
  b.1.exit.targets.forM (scanTarget count b.1.id)
  return s.defined

/-- The identifiers a function defines, if its blocks have the right shape. -/
def scan (f : Function) : Except Fault (List InstId) :=
  f.blocks.zipIdx.foldlM (scanBlock f.blocks.length) []

/-! ## The operands -/

def checkValue (f : Function) (defined : List InstId) : Value → Except Fault Unit
  | .arg i => if i < f.params.length then .ok () else .error (.illFormed (.unknownArg i))
  | .global g => if g < f.globals.length then .ok () else .error (.illFormed (.unknownGlobal g))
  | .const _ => .ok ()
  | .inst id => if id ∈ defined then .ok () else .error (.illFormed (.undefinedValue id))

/-- A phi in a block with predecessors `preds` has one entry for each of them. -/
def checkEntries (preds : List BlockId) : Instr → Except Fault Unit
  | .phi dest _ incoming =>
    if ascending (incoming.map (·.1)) = preds then .ok ()
    else .error (.illFormed (.phiEntries dest))
  | _ => .ok ()

def checkOperands (f : Function) (defined : List InstId) (preds : List (List BlockId))
    (b : Block) : Except Fault Unit := do
  b.body.forM fun i => do
    i.operands.forM (f.checkValue defined)
    if i.isPhi then checkEntries (← lookup preds b.id) i
  b.exit.operands.forM (f.checkValue defined)

/-- Accepts the well-formed functions and gives the first defect of any other. -/
def check (f : Function) : Except Fault Unit := do
  if f.blocks.isEmpty then throw (.illFormed (.noBlocks f.name))
  let defined ← f.scan
  let preds ← f.predecessors
  unless (← lookup preds entry).isEmpty do throw (.illFormed .entryTargeted)
  f.blocks.forM (f.checkOperands defined preds)

end Function

end Dataflow
