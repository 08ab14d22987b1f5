/-!
# Bit widths

A `Width` is a number of bits that fits a 64-bit machine word. Its `mask` has the low `bits` bits
set, so that `x &&& w.mask` keeps what a `w`-bit register would keep of the word `x`.
-/

namespace Dataflow

/-- A number of bits from 1 to 64. -/
structure Width where
  bits : Nat
  pos : 1 ≤ bits := by decide
  le : bits ≤ 64 := by decide
deriving DecidableEq

namespace Width

/-- The width of `n` bits, if a machine word has room for it and it is not empty. -/
def ofNat? (n : Nat) : Option Width :=
  if h : 1 ≤ n ∧ n ≤ 64 then some ⟨n, h.1, h.2⟩ else none

def w1 : Width := { bits := 1 }
def w32 : Width := { bits := 32 }
def w64 : Width := { bits := 64 }

/-- The word whose low `bits` bits are set. -/
def mask (w : Width) : BitVec 64 := BitVec.allOnes 64 >>> (64 - w.bits)

instance : Ord Width := ⟨fun a b => compare a.bits b.bits⟩
instance : LT Width := ⟨fun a b => a.bits < b.bits⟩

instance (a b : Width) : Decidable (a < b) := inferInstanceAs (Decidable (a.bits < b.bits))

/-- The number of bits, in decimal. -/
def text (w : Width) : String := toString w.bits

/-- The form a width takes in a diagnostic dump. -/
def dump (w : Width) : String := s!"Bitness({w.bits})"

end Width

end Dataflow
