import Tern.Emit.Basic

/-!
# Arithmetic

Negation, conversion and the binary operators on values of which not all are constants.
Every operation consumes its operands and yields a value in a register.
-/

namespace Tern.Emit

def negate : Item → Emit Value
  | .void => throw (.notNegated .void)
  | .value (.const t n) => throw (.notNegated (.value (.const t n)))
  | .value v => do
      let r ← acquire
      let w ← scalarWidth v.type
      instr (.mov (.reg r w) (← operand v))
      instr (.neg (.reg r w))
      discard v
      return .reg v.type r

/-- Fills the high bytes of a register with zeros.  A four-byte move does so by itself. -/
def zeroExtend (r : Register) (source target : Ty) : Emit Unit :=
  if source.size = 4 then
    instr (.mov (.reg r .dword) (.reg r .dword))
  else do
    let w ← scalarWidth target
    instr (.combine .and (.reg r w) (.mask source.size))

def load (r : Register) (source target : Ty) (address : Address) : Emit Unit :=
  if source.size < target.size then do
    let w ← scalarWidth target
    instr (.combine .xor (.reg r w) (.reg r w))
    let w ← scalarWidth source
    instr (.mov (.reg r w) (.mem none address))
  else do
    let w ← scalarWidth target
    instr (.mov (.reg r w) (.mem none address))

/-- Converts a value to another size: widening fills with zeros, narrowing drops high bytes.
A register is widened in place. -/
def resize (t : Ty) : Value → Emit Value
  | .const .. => throw .constCast
  | .reg source r => do
      if source.size < t.size then
        zeroExtend r source t
      return .reg t r
  | .mem source address holds => do
      let r ← acquire
      load r source t address
      release holds
      return .reg t r

/-- Converts a value to type `t`.  A change of type alone takes no instruction. -/
def convert (v : Value) (t : Ty) : Emit Value :=
  if v.type.size = t.size then pure (v.withType t) else resize t v

/-- Widens a value to type `t`; a constant only changes its type. -/
def widen (v : Value) (t : Ty) : Emit Value :=
  if v.isConst then pure (v.withType t) else convert v t

/-- Widens the narrower of two operands to the type of the other. -/
def balance (lhs rhs : Value) : Emit (Value × Value) :=
  if rhs.type.size < lhs.type.size then do
    let rhs ← widen rhs lhs.type
    return (lhs, rhs)
  else if lhs.type.size < rhs.type.size then do
    let lhs ← widen lhs rhs.type
    return (lhs, rhs)
  else
    return (lhs, rhs)

/-- A register that holds a value: its own, if it is in one. -/
def toRegister (v : Value) (w : Width) : Emit Register :=
  match v with
  | .reg _ r => pure r
  | v => do
      let r ← acquire
      instr (.mov (.reg r w) (← operand v))
      discard v
      return r

/-- Whether a value is a constant that no instruction of width `w` but `mov` takes. -/
def needsRegister (v : Value) (w : Width) : Bool :=
  match v with
  | .const _ n => w == .qword && !Word.fitsSigned32 n
  | _ => false

def additive (op : Combine) (w : Width) (lhs rhs : Value) : Emit Value := do
  let dst ← toRegister lhs w
  if needsRegister rhs w then
    withScratch fun tmp => do
      instr (.mov (.reg tmp .qword) (← operand rhs))
      instr (.combine op (.reg dst w) (.reg tmp .qword))
  else
    instr (.combine op (.reg dst w) (← operand rhs))
  discard rhs
  return .reg lhs.type dst

/-- Moves a value out of `rcx`, where a shift needs its count. -/
def vacateCount (r : Register) : Emit Register :=
  if r = .rcx then do
    let moved ← acquire
    instr (.mov (.reg moved .qword) (.reg .rcx .qword))
    release [.rcx]
    return moved
  else
    return r

def countOperand : Value → Emit Operand
  | .reg _ r => pure (.reg r .byte)
  | v => operand v

/-- Shifts a register by a count that is not constant; yields where the result is. -/
def shiftByCount (dir : Direction) (w : Width) (dst : Register) (rhs : Value) :
    Emit Register := do
  let dst ← vacateCount dst
  let count ← countOperand rhs
  reserving [.rcx] do
    instr (.mov (.reg .rcx .byte) count)
    instr (.shift dir (.reg dst w) (.reg .rcx .byte))
  discard rhs
  return dst

/-- Shift by a constant or by the low byte of a value. -/
def shift (dir : Direction) (w : Width) (lhs rhs : Value) : Emit Value := do
  let dst ← toRegister lhs w
  match rhs with
  | .const _ n =>
      instr (.shift dir (.reg dst w) (.imm (Word.unsigned 1 n)))
      return .reg lhs.type dst
  | rhs =>
      let dst ← shiftByCount dir w dst rhs
      return .reg lhs.type dst

/-- Loads a value into the accumulator, zero-extended to at least four bytes. -/
def fillAccumulator (v : Value) (w : Width) : Emit Unit :=
  match v with
  | .const _ n =>
      let full := if w = .qword then .qword else .dword
      instr (.mov (.reg .rax full) (.imm (Word.unsigned w.bytes n)))
  | v =>
      if w.bytes < 4 then do
        instr (.movzx (.reg .rax .dword) (← sizedOperand v w))
      else do
        instr (.mov (.reg .rax w) (← operand v))

/-- The operations that the machine carries out in `rax` and `rdx`. -/
inductive WideOp where
  | product
  | quotient
  | remainder
  deriving DecidableEq

/-- The value that `mul` and `div` take: constants and values held in `rdx` are first staged
in a register of their own, which is returned too. -/
def stage (v : Value) (w : Width) : Emit (Value × List Register) :=
  if v.isConst || v.held.contains .rdx then do
    let tmp ← acquire
    instr (.mov (.reg tmp w) (← operand v))
    return (.reg v.type tmp, [tmp])
  else
    return (v, [])

/-- Divides the accumulator; the remainder is left in `rdx`, or in `ah` for single bytes. -/
def divide (w : Width) (divisor : Value) : Emit Unit := do
  if w ≠ .byte then
    instr (.combine .xor (.reg .rdx .dword) (.reg .rdx .dword))
  instr (.div (← sizedOperand divisor w))

/-- Moves the remainder of a division into the accumulator. -/
def takeRemainder (w : Width) : Emit Unit :=
  if w = .byte then
    instr (.mov (.reg .rax .byte) .ah)
  else
    instr (.mov (.reg .rax w) (.reg .rdx w))

/-- Combines the accumulator with `factor` and leaves the result there. -/
def accumulate (op : WideOp) (w : Width) (factor : Value) : Emit Unit :=
  match op with
  | .product => do instr (.mul (← sizedOperand factor w))
  | .quotient => divide w factor
  | .remainder => do
      divide w factor
      takeRemainder w

def wide (op : WideOp) (w : Width) (lhs rhs : Value) : Emit Value := do
  let staged ← reserving [.rax, .rdx] do
    let (factor, staged) ← stage rhs w
    fillAccumulator lhs w
    accumulate op w factor
    return staged
  discard lhs
  discard rhs
  release staged
  let dst ← acquire
  instr (.mov (.reg dst w) (.reg .rax w))
  return .reg lhs.type dst

def operation (op : BinaryOp) (lhs rhs : Value) : Emit Value := do
  let w ← scalarWidth lhs.type
  if w.bytes ≠ rhs.type.size then
    throw .sizeMismatch
  else
    match op with
    | .add => additive .add w lhs rhs
    | .sub => additive .sub w lhs rhs
    | .shl => shift .left w lhs rhs
    | .shr => shift .right w lhs rhs
    | .mul => wide .product w lhs rhs
    | .div => wide .quotient w lhs rhs
    | .mod => wide .remainder w lhs rhs

end Tern.Emit
