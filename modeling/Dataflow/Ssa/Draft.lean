import Dataflow.Supply

/-!
# Drafts of functions

A `Draft` is a function being written, one call at a time. Blocks are declared before they are
filled, so that branches and phis can name blocks that are still empty; `extendPhi` extends a phi
with values that did not exist when it was written. `toFunction` turns a draft with no open block
into a function.
-/

namespace Dataflow

/-- A declared block, open until it has an exit. -/
structure OpenBlock where
  name : String
  body : List Instr := []
  exit : Option Exit := none
deriving DecidableEq

structure Draft where
  name : String
  params : List Decl := []
  globals : List Decl := []
  blocks : List OpenBlock := []
  /-- The block that instructions go to. -/
  current : Option BlockId := none
  ids : Supply := {}
deriving DecidableEq

/-- A call on a draft. -/
abbrev DraftM := StateT Draft (Except Fault)

namespace Draft

def param (name : String) (ty : Ty) : DraftM Value := fun d =>
  .ok (.arg d.params.length, { d with params := d.params ++ [⟨name, ty⟩] })

def global (name : String) (ty : Ty) : DraftM Value := fun d =>
  .ok (.global d.globals.length, { d with globals := d.globals ++ [⟨name, ty⟩] })

/-- Declares a block; the first one is the entry. -/
def block (name : String) : DraftM BlockId := fun d =>
  .ok (d.blocks.length, { d with blocks := d.blocks ++ [{ name }] })

/-- Selects the block that instructions go to. -/
def select (block : BlockId) : DraftM Unit := fun d =>
  if block < d.blocks.length then .ok ((), { d with current := some block })
  else .error (.misuse (.unknownBlock block))

/-- The selected block, which must be open. -/
def selected (d : Draft) : Except Fault BlockId :=
  match d.current with
  | none => .error (.misuse .noBlockSelected)
  | some b => do
    if (← lookup d.blocks b).exit.isSome then throw (.misuse (.alreadyTerminated b))
    return b

/-- Adds an instruction to the selected block. -/
def append (i : Instr) : DraftM Unit := fun d => do
  let b ← d.selected
  return ((), { d with blocks := d.blocks.modify b fun o => { o with body := o.body ++ [i] } })

/-- Adds the instruction that defines the next identifier. The identifier is taken before the
selected block is looked at. -/
def define (make : InstId → Instr) : DraftM Value := fun d => do
  let (id, ids) ← d.ids.take
  let ((), d) ← append (make id) { d with ids }
  return (.inst id, d)

/-- Ends the selected block, and leaves none selected. -/
def terminate (exit : Exit) : DraftM Unit := fun d => do
  let b ← d.selected
  return ((), { d with
    blocks := d.blocks.modify b fun o => { o with exit := some exit }
    current := none })

/-- The position of the first instruction that defines `id`: its block and its place there. -/
def locate? (d : Draft) (id : InstId) : Option (Nat × Nat) :=
  d.blocks.zipIdx.findSome? fun b =>
    (b.1.body.findIdx? (·.result? = some id)).map (b.2, ·)

/-- The phi with one more entry. -/
def withEntry (entry : BlockId × Value) : Instr → Instr
  | .phi dest ty incoming => .phi dest ty (incoming ++ [entry])
  | i => i

/-- Adds an entry to a phi that is already written. -/
def extendPhi (phi : Value) (block : BlockId) (value : Value) : DraftM Unit := fun d =>
  match phi.inst? with
  | none => .error (.misuse .notAResult)
  | some id =>
    match d.locate? id with
    | none => .error (.misuse (.unknownValue phi))
    | some (b, k) => do
      let i ← lookup (← lookup d.blocks b).body k
      unless i.isPhi do throw (.misuse (.notAPhi i))
      let extend (o : OpenBlock) : OpenBlock :=
        { o with body := o.body.modify k (withEntry (block, value)) }
      return ((), { d with blocks := d.blocks.modify b extend })

/-- One block of the finished function. -/
def close (o : OpenBlock × Nat) : Except Fault Block :=
  match o.1.exit with
  | some exit => .ok { id := o.2, name := o.1.name, body := o.1.body, exit }
  | none => .error (.misuse (.noExit o.2 o.1.name))

/-- The function that was written, if no block is open. -/
def toFunction (d : Draft) : Except Fault Function := do
  let blocks ← d.blocks.zipIdx.mapM close
  return { name := d.name, params := d.params, globals := d.globals, blocks }

/-! ## Calls as data -/

/-- The instructions that define a value, without the identifier they define. -/
inductive Definition
  | phi (ty : Ty) (incoming : List (BlockId × Value))
  | binary (op : BinOp) (lhs rhs : Value)
  | icmp (pred : Predicate) (lhs rhs : Value)
  | select (cond ifTrue ifFalse : Value)
  | alloca (ty : Ty) (count : Nat)
  | gep (base : Value) (indices : List Value)
  | load (ty : Ty) (addr : Value)
  | cast (op : CastOp) (src : Value) (ty : Ty)
  | call (callee : String) (args : List Value)
deriving DecidableEq

def Definition.instr : Definition → InstId → Instr
  | .phi ty incoming, dest => .phi dest ty incoming
  | .binary op lhs rhs, dest => .binary dest op lhs rhs
  | .icmp pred lhs rhs, dest => .icmp dest pred lhs rhs
  | .select cond ifTrue ifFalse, dest => .select dest cond ifTrue ifFalse
  | .alloca ty count, dest => .alloca dest ty count
  | .gep base indices, dest => .gep dest base indices
  | .load ty addr, dest => .load dest ty addr
  | .cast op src ty, dest => .cast dest op src ty
  | .call callee args, dest => .call (some dest) callee args

/-- One call on a draft. -/
inductive Call
  | param (name : String) (ty : Ty)
  | global (name : String) (ty : Ty)
  | block (name : String)
  | select (block : BlockId)
  | define (definition : Definition)
  | store (addr value : Value)
  | callVoid (callee : String) (args : List Value)
  | extendPhi (phi : Value) (block : BlockId) (value : Value)
  | terminate (exit : Exit)
deriving DecidableEq

/-- What a call answers. -/
inductive Reply
  | done
  | value (v : Value)
  | block (b : BlockId)
deriving DecidableEq

def perform : Call → DraftM Reply
  | .param name ty => do return .value (← param name ty)
  | .global name ty => do return .value (← global name ty)
  | .block name => do return .block (← block name)
  | .select b => do select b; return .done
  | .define definition => do return .value (← define definition.instr)
  | .store addr value => do append (.store addr value); return .done
  | .callVoid callee args => do append (.call none callee args); return .done
  | .extendPhi phi b value => do extendPhi phi b value; return .done
  | .terminate exit => do terminate exit; return .done

end Draft

end Dataflow
