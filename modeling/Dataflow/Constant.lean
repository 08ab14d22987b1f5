import Dataflow.Width

/-!
# Integer constants

A `Constant` is a machine word read at a width. `Constant.ofWord` clears the bits above the width;
a constant may also be given directly with any word, and then only `signed` ignores the excess.

`signed` is the two's complement reading of the low bits, `unsigned` the word itself.
-/

namespace Dataflow

/-- A machine word read at a width. -/
structure Constant where
  width : Width
  word : BitVec 64
deriving DecidableEq

namespace Constant

/-- The low bits of `v` that fit the width. -/
def ofWord (w : Width) (v : BitVec 64) : Constant := ⟨w, v &&& w.mask⟩

def ofBool (b : Bool) : Constant := ⟨.w1, if b then 1 else 0⟩

def ofWord32 (v : BitVec 32) : Constant := ⟨.w32, v.setWidth 64⟩

def ofWord64 (v : BitVec 64) : Constant := ⟨.w64, v⟩

/-- Zero extension: the word as a number. -/
def unsigned (c : Constant) : Nat := c.word.toNat

/-- Sign extension: the low bits are moved to the top of the word and back, the way down filling
in the sign. -/
def signed (c : Constant) : Int :=
  ((c.word <<< (64 - c.width.bits)).sshiftRight (64 - c.width.bits)).toInt

/-- The text of a constant names its type and its signed value; a single bit is a truth value. -/
def text (c : Constant) : String :=
  if c.width = .w1 then (if c.word = 0 then "false" else "true")
  else s!"i{c.width.text} {c.signed}"

/-- The number of hexadecimal digits that hold `bits` bits. -/
def hexWidth (w : Width) : Nat := w.bits / 4 + (if w.bits % 4 = 0 then 0 else 1)

/-- Lower-case hexadecimal, zero padded to the digits its width needs. -/
def hex (c : Constant) : String :=
  String.ofList ((Nat.toDigits 16 c.word.toNat).leftpad (hexWidth c.width) '0')

end Constant

end Dataflow
