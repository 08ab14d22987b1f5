import Dataflow.Ssa.Function

/-!
# Runs of a function

`Function.step` executes one instruction or one exit of a function, for any interpretation `Interp`
of its operations on values and memory. A block's phis are evaluated together when control arrives,
from the values before the arrival. A step that reads a value which has not been computed, or an
operation that is not defined on its operands, has no next state.

`Function.Run` are the traces of a function: the states it goes through from some arguments and some
memory. Each state records what the step into it did to the outside (`Action`).
-/

namespace Dataflow

/-- What operations do to values `V` and memory `M`. -/
structure Interp (V M : Type) where
  const : Constant → V
  global : GlobalId → V
  /-- The way a condition decides. -/
  truth : V → Option Bool
  binary : BinOp → V → V → Option V
  icmp : Predicate → V → V → Option V
  select : V → V → V → Option V
  alloca : Ty → Nat → M → Option (V × M)
  gep : V → List V → Option V
  load : Ty → V → M → Option (V × M)
  store : V → V → M → Option M
  cast : CastOp → Ty → V → Option V
  call : String → List V → M → Option (V × M)

/-- What a step does to the outside. -/
inductive Action (V : Type)
  | load (addr value : V)
  | store (addr value : V)
  | call (callee : String) (args : List V) (result : V)
  | ret (value : Option V)

/-- The values computed so far. -/
abbrev Env (V : Type) := InstId → Option V

namespace Env

variable {V : Type}

def set (env : Env V) (id : InstId) (v : V) : Env V := fun id' => if id' = id then some v else env id'

/-- Assigns some values, the later ones last. -/
def setAll (env : Env V) (vs : List (InstId × V)) : Env V :=
  vs.foldl (fun env w => env.set w.1 w.2) env

/-- Records the result of an instruction, if it has one. -/
def record (env : Env V) (id : Option InstId) (v : Option V) : Env V :=
  match id, v with
  | some id, some v => env.set id v
  | _, _ => env

end Env

/-- The result of an operation. -/
structure Effect (V M : Type) where
  value : Option V
  memory : M
  action : Option (Action V)

/-- Where control goes from an exit. -/
inductive Choice (V : Type)
  | goto (target : BlockId)
  | ret (value : Option V)

namespace Interp

variable {V M : Type} (I : Interp V M) (args : List V) (env : Env V)

def read : Value → Option V
  | .arg i => args[i]?
  | .global g => some (I.global g)
  | .const c => some (I.const c)
  | .inst id => env id

/-- The operation of an instruction on the values of its operands. A phi is none. -/
def perform (memory : M) : Instr → List V → Option (Effect V M)
  | .binary _ op _ _, [a, b] => (I.binary op a b).map fun v => ⟨some v, memory, none⟩
  | .icmp _ pred _ _, [a, b] => (I.icmp pred a b).map fun v => ⟨some v, memory, none⟩
  | .select .., [c, a, b] => (I.select c a b).map fun v => ⟨some v, memory, none⟩
  | .alloca _ ty count, [] => (I.alloca ty count memory).map fun r => ⟨some r.1, r.2, none⟩
  | .gep .., base :: indices => (I.gep base indices).map fun v => ⟨some v, memory, none⟩
  | .load _ ty _, [addr] =>
    (I.load ty addr memory).map fun r => ⟨some r.1, r.2, some (.load addr r.1)⟩
  | .store .., [addr, value] =>
    (I.store addr value memory).map fun m => ⟨none, m, some (.store addr value)⟩
  | .cast _ op _ ty, [a] => (I.cast op ty a).map fun v => ⟨some v, memory, none⟩
  | .call _ callee _, vs =>
    (I.call callee vs memory).map fun r => ⟨some r.1, r.2, some (.call callee vs r.1)⟩
  | _, _ => none

/-- The value a phi takes on arrival from `pred`. -/
def phiValue (pred : BlockId) : Instr → Option (InstId × V)
  | .phi dest _ incoming =>
    (incoming.find? (·.1 = pred)).bind fun entry => (I.read args env entry.2).map (dest, ·)
  | _ => none

def choose : Exit → Option (Choice V)
  | .jump target => some (.goto target)
  | .branch cond t e => do
    let taken ← I.truth (← I.read args env cond)
    return .goto (if taken then t else e)
  | .ret none => some (.ret none)
  | .ret (some value) => do return .ret (some (← I.read args env value))

end Interp

/-- Where a run stands: in front of an instruction or of the exit of a block, or at the end. -/
inductive Place
  | before (block : BlockId) (index : Nat)
  | returned

structure State (V M : Type) where
  place : Place
  env : Env V
  memory : M
  /-- What the last step did. -/
  action : Option (Action V)

namespace Function

variable {V M : Type} (I : Interp V M) (args : List V)

/-- Executes the instruction at a place. -/
def execute (s : State V M) (b : BlockId) (index : Nat) (i : Instr) : Option (State V M) := do
  let operands ← i.operands.mapM (I.read args s.env)
  let effect ← I.perform s.memory i operands
  return { place := .before b (index + 1)
           env := s.env.record i.result? effect.value
           memory := effect.memory
           action := effect.action }

/-- Control arrives at `target` from `pred`. -/
def arrive (f : Function) (s : State V M) (pred target : BlockId) : Option (State V M) := do
  let b ← f.blocks[target]?
  let values ← b.phis.mapM (I.phiValue args s.env pred)
  return { place := .before target b.phis.length
           env := s.env.setAll values
           memory := s.memory
           action := none }

/-- Follows a choice made at the exit of a block. -/
def follow (f : Function) (s : State V M) (b : BlockId) : Choice V → Option (State V M)
  | .goto target => f.arrive I args s b target
  | .ret value => some { s with place := .returned, action := some (.ret value) }

def step (f : Function) (s : State V M) : Option (State V M) :=
  match s.place with
  | .returned => none
  | .before b index => do
    let block ← f.blocks[b]?
    match block.body[index]? with
    | some i => execute I args s b index i
    | none => (I.choose args s.env block.exit).bind (f.follow I args s b)

/-- A run starts in the entry with nothing computed. -/
def initial (memory : M) : State V M :=
  { place := .before entry 0, env := fun _ => none, memory, action := none }

/-- The states a function goes through from some arguments and some memory, up to any length. -/
inductive Run (f : Function) (memory : M) : List (State V M) → Prop
  | start : Run f memory [initial memory]
  | next {trace : List (State V M)} {s s' : State V M} (run : Run f memory trace)
    (last : trace.getLast? = some s) (step : f.step I args s = some s') :
    Run f memory (trace ++ [s'])

end Function

end Dataflow
