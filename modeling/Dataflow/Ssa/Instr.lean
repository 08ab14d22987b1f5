import Dataflow.Ssa.Value

/-!
# Instructions

The instructions of a block, with the operands each reads (`Instr.operands`), the result it defines
(`Instr.result?`) and its text. A phi's incoming values are keyed by predecessor and may stand in
any order.
-/

namespace Dataflow

inductive BinOp
  | add | sub | mul | udiv | sdiv | urem | srem | and | or | xor | shl | lshr | ashr
deriving DecidableEq

namespace BinOp

def all : List BinOp :=
  [.add, .sub, .mul, .udiv, .sdiv, .urem, .srem, .and, .or, .xor, .shl, .lshr, .ashr]

def name : BinOp → String
  | .add => "add"
  | .sub => "sub"
  | .mul => "mul"
  | .udiv => "udiv"
  | .sdiv => "sdiv"
  | .urem => "urem"
  | .srem => "srem"
  | .and => "and"
  | .or => "or"
  | .xor => "xor"
  | .shl => "shl"
  | .lshr => "lshr"
  | .ashr => "ashr"

end BinOp

/-- An order comparison: of signed or unsigned numbers, greater or less, strict or not. -/
structure Inequality where
  signed : Bool
  greater : Bool
  orEqual : Bool
deriving DecidableEq

namespace Inequality

def all : List Inequality :=
  [false, true].flatMap fun s => [false, true].flatMap fun g => [false, true].map (⟨s, g, ·⟩)

def name (i : Inequality) : String :=
  (if i.signed then "s" else "u") ++ (if i.greater then "g" else "l") ++
    (if i.orEqual then "e" else "t")

/-- The three choices as bits: sign, direction, equality. -/
def code (i : Inequality) : Nat :=
  4 * i.signed.toNat + 2 * i.greater.toNat + i.orEqual.toNat

end Inequality

/-- What an integer comparison tests. -/
inductive Predicate
  | eq
  | ne
  | order (inequality : Inequality)
deriving DecidableEq

namespace Predicate

def all : List Predicate := [.eq, .ne] ++ Inequality.all.map .order

def name : Predicate → String
  | .eq => "eq"
  | .ne => "ne"
  | .order i => i.name

end Predicate

inductive CastOp
  | sext | zext | bitcast | trunc
deriving DecidableEq

namespace CastOp

def all : List CastOp := [.sext, .zext, .bitcast, .trunc]

def name : CastOp → String
  | .sext => "sext"
  | .zext => "zext"
  | .bitcast => "bitcast"
  | .trunc => "trunc"

end CastOp

inductive Instr
  | phi (dest : InstId) (ty : Ty) (incoming : List (BlockId × Value))
  | binary (dest : InstId) (op : BinOp) (lhs rhs : Value)
  | icmp (dest : InstId) (pred : Predicate) (lhs rhs : Value)
  | select (dest : InstId) (cond ifTrue ifFalse : Value)
  | alloca (dest : InstId) (ty : Ty) (count : Nat)
  | gep (dest : InstId) (base : Value) (indices : List Value)
  | load (dest : InstId) (ty : Ty) (addr : Value)
  | store (addr value : Value)
  | cast (dest : InstId) (op : CastOp) (src : Value) (ty : Ty)
  | call (dest : Option InstId) (callee : String) (args : List Value)
deriving DecidableEq

namespace Instr

/-- The identifier the instruction defines. -/
def result? : Instr → Option InstId
  | .phi dest .. | .binary dest .. | .icmp dest .. | .select dest .. | .alloca dest ..
  | .gep dest .. | .load dest .. | .cast dest .. => some dest
  | .call dest .. => dest
  | .store .. => none

/-- The values read, in operand order; those of a phi stand in the order of its entries. -/
def operands : Instr → List Value
  | .phi _ _ incoming => incoming.map (·.2)
  | .binary _ _ lhs rhs | .icmp _ _ lhs rhs => [lhs, rhs]
  | .select _ cond ifTrue ifFalse => [cond, ifTrue, ifFalse]
  | .alloca .. => []
  | .gep _ base indices => base :: indices
  | .load _ _ addr => [addr]
  | .store addr value => [addr, value]
  | .cast _ _ src _ => [src]
  | .call _ _ args => args

def isPhi : Instr → Bool
  | .phi .. => true
  | _ => false

/-- Whether the instruction reads or writes memory. -/
def isAccess : Instr → Bool
  | .load .. | .store .. => true
  | _ => false

/-- Values separated by commas. -/
def listText (vs : List Value) : String := ", ".intercalate (vs.map Value.text)

/-- A phi entry: the value and the predecessor it comes from. -/
def entryText (entry : BlockId × Value) : String :=
  s!"[{entry.2.text}, {BlockId.text entry.1}]"

/-- The defining part of an instruction that has a result. -/
def define (dest : InstId) (rest : String) : String := s!"{InstId.text dest} = {rest}"

def text : Instr → String
  | .phi dest ty [] => define dest s!"phi {ty.text}"
  | .phi dest ty incoming =>
    define dest s!"phi {ty.text} " ++ ", ".intercalate (incoming.map entryText)
  | .binary dest op lhs rhs => define dest s!"{op.name} " ++ listText [lhs, rhs]
  | .icmp dest pred lhs rhs => define dest s!"icmp {pred.name} " ++ listText [lhs, rhs]
  | .select dest cond ifTrue ifFalse => define dest "select " ++ listText [cond, ifTrue, ifFalse]
  | .alloca dest ty count => define dest s!"alloca {ty.text}, {count}"
  | .gep dest base indices => define dest "gep " ++ listText (base :: indices)
  | .load dest ty addr => define dest s!"load {ty.text}, {addr.text}"
  | .store addr value => s!"store {value.text}, {addr.text}"
  | .cast dest op src ty => define dest s!"{op.name} {src.text} to {ty.text}"
  | .call (some dest) callee args => define dest s!"call {callee}({listText args})"
  | .call none callee args => s!"call {callee}({listText args})"

end Instr

end Dataflow
