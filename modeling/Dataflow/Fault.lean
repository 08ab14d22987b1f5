import Dataflow.Ssa.Function

/-!
# Faults

A `Fault` is a broken precondition: the caller asked for something that has no answer. It ends the
computation it arises in. What a computation declines as part of its contract is not a fault but a
`Refusal` (`Dataflow.Net.Refusal`).
-/

namespace Dataflow

/-- Why a function is not well formed. -/
inductive Defect
  | noBlocks (name : String)
  | misplacedBlock
  | latePhi (block : BlockId)
  | reusedId (id : InstId)
  | unknownTarget (block target : BlockId)
  | entryTargeted
  | unknownArg (index : Nat)
  | unknownGlobal (id : GlobalId)
  | undefinedValue (id : InstId)
  | phiEntries (dest : InstId)
deriving DecidableEq

def Defect.message : Defect → String
  | .noBlocks name => s!"function `{name}` has no blocks"
  | .misplacedBlock => "block ids must match their position"
  | .latePhi block => s!"phis must lead their block ({BlockId.text block})"
  | .reusedId id => s!"Ids must not be re-used ({InstId.text id})"
  | .unknownTarget block target =>
    s!"{BlockId.text block} branches to unknown {BlockId.text target}"
  | .entryTargeted => "the entry block can't be a branch target"
  | .unknownArg index => s!"unknown arg {(Value.arg index).text}"
  | .unknownGlobal id => s!"unknown global {GlobalId.text id}"
  | .undefinedValue id => s!"use of undefined value {InstId.text id}"
  | .phiEntries dest => s!"phi {InstId.text dest} must have exactly one value per predecessor"

/-- A call that the state of a draft does not allow. -/
inductive Misuse
  | unknownBlock (block : BlockId)
  | noBlockSelected
  | alreadyTerminated (block : BlockId)
  | notAResult
  | notAPhi (instr : Instr)
  | unknownValue (value : Value)
  | noExit (block : BlockId) (name : String)
deriving DecidableEq

def Misuse.message : Misuse → String
  | .unknownBlock block => s!"unknown block {BlockId.text block}"
  | .noBlockSelected => "no block selected, call `switch_to` first"
  | .alreadyTerminated block => s!"{BlockId.text block} is already terminated"
  | .notAResult => "phi must be an instruction result"
  | .notAPhi instr => s!"`{instr.text}` is not a phi"
  | .unknownValue value => s!"unknown value {value.text}"
  | .noExit block name => s!"{BlockId.text block} ({name}) has no terminator"

inductive Fault
  /-- A position past the end of a list. -/
  | outOfBounds
  /-- A 32-bit sum that does not fit. -/
  | overflow
  /-- All identifiers have been handed out. -/
  | idsExhausted
  /-- An iteration that does not come to rest. It takes a function whose block identifiers are not
  their positions to get here. -/
  | endless
  | illFormed (defect : Defect)
  | misuse (cause : Misuse)
deriving DecidableEq

def Fault.message : Fault → String
  | .outOfBounds => "index out of bounds"
  | .overflow => "arithmetic overflow"
  | .idsExhausted => "assertion failed: id_num < u32::MAX"
  | .endless => "iteration does not end"
  | .illFormed defect => defect.message
  | .misuse cause => cause.message

/-- The element at a position, which must exist. -/
def lookup {α : Type} (xs : List α) (i : Nat) : Except Fault α :=
  match xs[i]? with
  | some x => .ok x
  | none => .error .outOfBounds

end Dataflow
