import Dataflow.Constant
import Dataflow.Ident

/-!
# Types and values

A `Ty` is the type of a value; `void` is the type of what produces none. A `Value` is anything an
instruction can read.
-/

namespace Dataflow

inductive Ty
  | int (width : Width)
  /-- An address into some memory region. -/
  | ptr
  /-- The type of an instruction that produces no value. -/
  | void
deriving DecidableEq

def Ty.text : Ty → String
  | .int w => s!"i{w.text}"
  | .ptr => "ptr"
  | .void => "void"

/-- The type of a constant. -/
def Constant.ty (c : Constant) : Ty := .int c.width

/-- Anything an instruction can read. -/
inductive Value
  /-- The parameter at a position. -/
  | arg (index : Nat)
  | global (id : GlobalId)
  | const (c : Constant)
  /-- The result of an instruction. -/
  | inst (id : InstId)
deriving DecidableEq

namespace Value

/-- The instruction whose result this is. -/
def inst? : Value → Option InstId
  | .inst id => some id
  | _ => none

def text : Value → String
  | .arg i => s!"%arg{i}"
  | .global g => GlobalId.text g
  | .const c => c.text
  | .inst i => InstId.text i

/-- A 32-bit constant operand. -/
def i32 (v : BitVec 32) : Value := .const (.ofWord32 v)

/-- A single-bit constant operand. -/
def i1 (b : Bool) : Value := .const (.ofBool b)

end Value

end Dataflow
