import Mathlib.Algebra.Ring.Nat

/-!
# IEEE double values by their bits

A `double` is its 64-bit pattern, which is what copying it byte by byte keeps.
The comparison is the IEEE one: a NaN compares false with everything and the
two zeros are equal.
-/

namespace ElioP2P.Library

structure Double where
  bits : UInt64
  deriving DecidableEq

namespace Double

def zero : Double := ⟨0⟩

def magnitude (d : Double) : Nat := d.bits.toNat % 2 ^ 63

def isNegative (d : Double) : Bool := 2 ^ 63 ≤ d.bits.toNat

def isNaN (d : Double) : Bool := 0x7ff0000000000000 < d.magnitude

/-- The value on the integer line that the order of finite doubles follows. -/
def rank (d : Double) : Int := if d.isNegative then -(d.magnitude : Int) else d.magnitude

def lt (a b : Double) : Bool := !a.isNaN && !b.isNaN && a.rank < b.rank

end Double

end ElioP2P.Library
