/-!
# Integers of a fixed number of bytes

Constants are integers.  A machine word keeps only their low bytes, read either as an
unsigned number or in two's complement.
-/

namespace Tern.Word

/-- How many numbers have `bytes` bytes. -/
def modulus (bytes : Nat) : Nat := 1 <<< (8 * bytes)

/-- `v` reduced to an unsigned number of `bytes` bytes.  A number that fits is left alone,
so that no huge power is formed for a huge size. -/
def unsigned (bytes : Nat) (v : Int) : Int :=
  if 0 ≤ v ∧ v.toNat.log2 < 8 * bytes then v else v % modulus bytes

/-- `v` reduced to a signed number of `bytes` bytes. -/
def signed (bytes : Nat) (v : Int) : Int :=
  if v.natAbs.log2 + 1 < 8 * bytes then v else v.bmod (modulus bytes)

/-- Whether `v`, as a signed number of eight bytes, fits in four. -/
def fitsSigned32 (v : Int) : Bool :=
  decide (-0x80000000 ≤ signed 8 v) && decide (signed 8 v < 0x80000000)

/-- The largest displacement of an address. -/
def maxDisplacement : Int := 0x7fffffff

end Tern.Word
