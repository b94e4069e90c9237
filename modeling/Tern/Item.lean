import Tern.Machine.Instr
import Tern.Ty

/-!
# Items

An item says where the value of an expression is: known at compile time, in a register, or
in memory.  A procedure without result yields the void item.
-/

namespace Tern

/-- A value and where it is.  A value in memory lists the registers that its address keeps
busy; they are released together with it. -/
inductive Value where
  | const (type : Ty) (value : Int)
  | reg (type : Ty) (r : Register)
  | mem (type : Ty) (address : Address) (holds : List Register)
  deriving DecidableEq

namespace Value

def type : Value → Ty
  | const t _ | reg t _ | mem t _ _ => t

def withType (t : Ty) : Value → Value
  | const _ v => const t v
  | reg _ r => reg t r
  | mem _ a hs => mem t a hs

/-- The registers that a value keeps busy. -/
def held : Value → List Register
  | const .. => []
  | reg _ r => [r]
  | mem _ _ hs => hs

def isConst : Value → Bool
  | const .. => true
  | _ => false

@[simp] theorem type_withType (t : Ty) (v : Value) : (v.withType t).type = t := by
  cases v <;> rfl

@[simp] theorem held_withType (t : Ty) (v : Value) : (v.withType t).held = v.held := by
  cases v <;> rfl

end Value

inductive Item where
  | value (v : Value)
  | void
  deriving DecidableEq

namespace Item

def kindName : Item → String
  | value (.const ..) => "Const"
  | value (.reg ..) => "Reg"
  | value (.mem ..) => "Mem"
  | void => "Void"

def held : Item → List Register
  | value v => v.held
  | void => []

/-- Only what is in memory has an address. -/
def isInMemory : Item → Bool
  | value (.mem ..) => true
  | _ => false

end Item

instance : Coe Value Item := ⟨Item.value⟩

end Tern
