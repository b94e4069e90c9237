import Tern.Failure

/-!
# Names by size

Register views and size keywords chosen by a number of bytes, which may be no machine size.
A negative number is as little a size as zero is.
-/

namespace Tern

/-- The name of the low `bytes` bytes of a register. -/
def Register.viewOfBytes (r : Register) (bytes : Int) : Except Fault String :=
  match Width.ofBytes? bytes.toNat with
  | some w => .ok (r.view w)
  | none => .error (.registerSize bytes)

/-- The word that sizes a memory operand of `bytes` bytes. -/
def Width.keywordOfBytes (bytes : Int) : Except Fault String :=
  match Width.ofBytes? bytes.toNat with
  | some w => .ok w.keyword
  | none => .error (.operandSize bytes)

end Tern
