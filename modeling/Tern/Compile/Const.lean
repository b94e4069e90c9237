import Tern.Failure
import Tern.Word

/-!
# Constant arithmetic

Constants are unsigned integers of their type's size.  An operation on two of them is done
in the wider type, the left one's when both are equally wide, and wraps around.
-/

namespace Tern.Const

def reduce (t : Ty) (v : Int) : Int := Word.unsigned t.size v

/-- The bits of a shift count that the machine looks at. -/
def shiftModulus (t : Ty) : Int := if t.size = 8 then 64 else 32

/-- The exact result of an operator, or nothing for a division by zero. -/
def evaluate? (op : BinaryOp) (modulus l r : Int) : Option Int :=
  match op with
  | .add => some (l + r)
  | .sub => some (l - r)
  | .mul => some (l * r)
  | .div => if r = 0 then none else some (l / r)
  | .mod => if r = 0 then none else some (l % r)
  | .shl => some (l <<< (r % modulus).toNat)
  | .shr => some (l >>> (r % modulus).toNat)

def fold (op : BinaryOp) (lt : Ty) (l : Int) (rt : Ty) (r : Int) : Except Problem (Ty × Int) :=
  let t := lt.wider rt
  match evaluate? op (shiftModulus t) (reduce t l) (reduce t r) with
  | some v => .ok (t, reduce t v)
  | none => .error .divisionByZero

def ofDigits (digits : List Char) : Nat :=
  digits.foldl (fun n c => 10 * n + (c.toNat - '0'.toNat)) 0

end Tern.Const
