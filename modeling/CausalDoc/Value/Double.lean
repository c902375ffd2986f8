/- Floating-point numbers as bit patterns.

   A replica carries doubles without computing on them, so a double is its 64
   bits (IEEE 754, binary64): copies keep every bit, the payload of a NaN
   included. -/

namespace CausalDoc

/-- A double, given by its bits: sign, 11 bits of exponent, 52 bits of fraction. -/
structure Double where
  /-- The bits, the sign foremost. -/
  bits : UInt64
  deriving DecidableEq, Repr, Inhabited

namespace Double

def exponent (d : Double) : Nat := d.bits.toNat / 0x10000000000000 % 0x800

def fraction (d : Double) : Nat := d.bits.toNat % 0x10000000000000

def isFinite (d : Double) : Bool := d.exponent ≠ 0x7FF

/-- Not a number: the largest exponent with a fraction. -/
def isNaN (d : Double) : Bool := d.exponent = 0x7FF && d.fraction ≠ 0

def isZero (d : Double) : Bool := d.exponent = 0 && d.fraction = 0

/-- Equality of the numbers: a NaN equals nothing, and the two zeros are equal. -/
def same (a b : Double) : Bool :=
  !a.isNaN && !b.isNaN && (a.bits = b.bits || a.isZero && b.isZero)

/-- The double nearest to a whole number. -/
def ofNat (n : Nat) : Double := ⟨(Float.ofNat n).toBits⟩

def negate (d : Double) : Double := ⟨d.bits ^^^ 0x8000000000000000⟩

end Double

end CausalDoc
