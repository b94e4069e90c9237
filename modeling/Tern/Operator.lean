/-!
# Binary operators

The seven binary operators of Tern, their spelling and how tightly they bind.
-/

namespace Tern

inductive BinaryOp where
  | add
  | sub
  | mul
  | div
  | mod
  | shl
  | shr
  deriving DecidableEq

namespace BinaryOp

/-- Every operator: the arithmetic ones, then the shifts. -/
def all : List BinaryOp := [add, sub, mul, div, mod, shl, shr]

def spelling : BinaryOp → String
  | add => "+"
  | sub => "-"
  | mul => "*"
  | div => "/"
  | mod => "%"
  | shl => "<<"
  | shr => ">>"

/-- Binding strength; a higher number binds tighter. -/
def precedence : BinaryOp → Nat
  | shl | shr => 0
  | add | sub => 1
  | mul | div | mod => 2

end BinaryOp

end Tern
