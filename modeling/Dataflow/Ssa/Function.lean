import Dataflow.Ssa.Instr

/-!
# Blocks and functions

A function is a list of blocks in declaration order, the first of which is the entry. Nothing about
a `Function` is assumed: identifiers of blocks need not be their positions and branch targets need
not exist. `Dataflow.Ssa.WellFormed` says which functions are well formed.
-/

namespace Dataflow

/-- How a block ends. -/
inductive Exit
  | jump (target : BlockId)
  | branch (cond : Value) (ifTrue ifFalse : BlockId)
  | ret (value : Option Value)
deriving DecidableEq

namespace Exit

/-- The blocks control can go to, as declared; both arms of a branch may name one block. -/
def targets : Exit → List BlockId
  | .jump target => [target]
  | .branch _ ifTrue ifFalse => [ifTrue, ifFalse]
  | .ret _ => []

def operands : Exit → List Value
  | .branch cond _ _ => [cond]
  | .ret (some value) => [value]
  | .jump _ | .ret none => []

/-- The same exit with every branch to `old` sent to `new` instead. -/
def retarget (old new : BlockId) : Exit → Exit
  | .jump t => .jump (if t = old then new else t)
  | .branch cond t e => .branch cond (if t = old then new else t) (if e = old then new else e)
  | .ret value => .ret value

def text : Exit → String
  | .jump target => s!"br {BlockId.text target}"
  | .branch cond t e => s!"br {cond.text}, {BlockId.text t}, {BlockId.text e}"
  | .ret (some value) => s!"ret {value.text}"
  | .ret none => "ret"

end Exit

structure Block where
  id : BlockId
  name : String
  body : List Instr
  exit : Exit
deriving DecidableEq

namespace Block

/-- The phis a block starts with. -/
def phis (b : Block) : List Instr := b.body.takeWhile Instr.isPhi

def text (b : Block) : String :=
  s!"{BlockId.text b.id}: ; {b.name}\n" ++ String.join (b.body.map fun i => s!"    {i.text}\n") ++
    s!"    {b.exit.text}"

end Block

/-- A name with its type: a parameter or a global. -/
structure Decl where
  name : String
  ty : Ty
deriving DecidableEq

structure Function where
  name : String
  params : List Decl
  globals : List Decl
  blocks : List Block
deriving DecidableEq

namespace Function

/-- The block control starts in. -/
def entry : BlockId := 0

/-- The first instruction that defines `id`, with the block it stands in. -/
def find? (f : Function) (id : InstId) : Option (BlockId × Instr) :=
  f.blocks.findSome? fun b => (b.body.find? (·.result? = some id)).map (b.id, ·)

def globalText (g : Decl × Nat) : String :=
  s!"{GlobalId.text g.2} = global {g.1.ty.text} ; {g.1.name}\n"

def paramText (p : Decl × Nat) : String := s!"{(Value.arg p.2).text}: {p.1.ty.text}"

def paramsText (ps : List Decl) : String := ", ".intercalate (ps.zipIdx.map paramText)

def text (f : Function) : String :=
  String.join (f.globals.zipIdx.map globalText) ++
    s!"fn {f.name}({paramsText f.params}) \x7b" ++
    String.join (f.blocks.map fun b => s!"\n{b.text}") ++ "\n\x7d"

end Function

end Dataflow
