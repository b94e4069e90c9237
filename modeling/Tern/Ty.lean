import Tern.Operator

/-!
# Types

Tern has four builtin types, pointers and fixed-size arrays.  This module gives their
sizes, their spelling, and which operators and indexes they accept.
-/

namespace Tern

/-- The builtin types, all of them unsigned integers. -/
inductive Builtin where
  | byte
  | char
  | int
  | long
  deriving DecidableEq

namespace Builtin

def all : List Builtin := [byte, char, int, long]

def name : Builtin → String
  | byte => "Byte"
  | char => "Char"
  | int => "Int"
  | long => "Long"

def size : Builtin → Nat
  | byte => 1
  | char => 1
  | int => 4
  | long => 8

end Builtin

inductive Ty where
  | builtin (b : Builtin)
  | pointer (base : Ty)
  | array (base : Ty) (count : Nat)
  deriving DecidableEq

namespace Ty

def pointerSize : Nat := 8

/-- Largest size in bytes of a variable, and of the variables of one scope together.
Every address inside them is a signed 32-bit displacement away from its base. -/
def sizeLimit : Nat := 0x7fffffff

def countLimit : Nat := 0x7fffffff

def size : Ty → Nat
  | builtin b => b.size
  | pointer _ => pointerSize
  | array base count => count * base.size

/-- The spelling of a type in a program: `Int`, `Char*`, `Long[4]`. -/
def spelling : Ty → String
  | builtin b => b.name
  | pointer base => base.spelling ++ "*"
  | array base count => base.spelling ++ "[" ++ toString count ++ "]"

def isBuiltin : Ty → Bool
  | builtin _ => true
  | _ => false

def isArray : Ty → Bool
  | array .. => true
  | _ => false

/-- The type of the elements reached by indexing, for a type that can be indexed. -/
def element? : Ty → Option Ty
  | builtin _ => none
  | pointer base => some base
  | array base _ => some base

def isIndexable (t : Ty) : Bool := t.element?.isSome

/-- Values of builtin type serve as indexes. -/
def canIndex (t : Ty) : Bool := t.isBuiltin

def isIndexableBy (t index : Ty) : Bool := t.isIndexable && index.canIndex

/-- Whether `t` may stand to the left of `op`. -/
def admits (t : Ty) (op : BinaryOp) : Bool :=
  match t with
  | builtin _ => true
  | pointer _ => op == .add || op == .sub
  | array .. => false

/-- Whether `t` may stand to the left of `op` with `other` to the right.  Integers mix
freely; two pointers must point to the same type. -/
def admitsWith (t : Ty) (op : BinaryOp) (other : Ty) : Bool :=
  t.admits op &&
    match t, other with
    | builtin _, builtin _ => true
    | pointer base, pointer base' => base == base'
    | pointer _, builtin _ => true
    | _, _ => false

/-- The scalar type that an array of arrays holds in the end. -/
def unit : Ty → Ty
  | array base _ => base.unit
  | t => t

/-- The wider of two operand types, the left one when they are equally wide. -/
def wider (l r : Ty) : Ty := if l.size < r.size then r else l

@[simp] theorem size_builtin (b : Builtin) : (builtin b).size = b.size := rfl

@[simp] theorem size_pointer (base : Ty) : (pointer base).size = 8 := rfl

@[simp] theorem size_array (base : Ty) (count : Nat) :
    (array base count).size = count * base.size := rfl

end Ty

end Tern
