import Tern.Emit.Arithmetic
import Tern.Scope

/-!
# Access to memory

Variables, addresses, indexed elements, assignment, and calls of the builtin procedures.
-/

namespace Tern.Emit

def variableValue (v : Variable) : Emit Value :=
  match v.storage with
  | none => throw (.notPlaced v.name)
  | some (.global label _) => pure (.mem v.type { base := .label label } [])
  | some (.frame offset _) =>
      pure (.mem v.type { base := .reg .rbp, offset := .disp (-offset) } [])

def reference (item : Item) : Emit Value :=
  match item with
  | .value (.mem t address holds) => do
      let r ← acquire
      instr (.lea r address)
      release holds
      return .reg (.pointer t) r
  | _ => throw (.noAddress item)

/-- The register that holds the address of element 0.  An array in memory is its own
address; a pointer in memory is loaded. -/
def elementBase : Value → Emit Register
  | .reg _ r => pure r
  | .mem t address holds => do
      let r ← acquire
      if t.isArray then
        instr (.lea r address)
      else
        instr (.mov (.reg r .qword) (.mem none address))
      release holds
      return r
  | v@(.const ..) => throw (.notIndexed v)

/-- Moves an operand of width `w` into a register and fills the rest of it with zeros. -/
def moveExtended (r : Register) (w : Width) (src : Operand) : Emit Unit :=
  if w.bytes < 4 then
    instr (.movzx (.reg r .qword) src)
  else
    instr (.mov (.reg r w) src)

def extendIndex (index : Value) : Emit Register := do
  let w ← scalarWidth index.type
  match index with
  | .reg _ r =>
      if w ≠ .qword then
        moveExtended r w (.reg r w)
      return r
  | _ =>
      let r ← acquire
      moveExtended r w (← sizedOperand index w)
      discard index
      return r

/-- The element whose index is in a register.  Sizes that no address can scale by are
multiplied out first. -/
def scaledElement (element : Ty) (base index : Register) : Emit Value :=
  if (Width.ofBytes? element.size).isSome then
    return .mem element { base := .reg index, scale := element.size, offset := .reg base }
      [index, base]
  else do
    instr (.imul index element.size)
    return .mem element { base := .reg index, offset := .reg base } [index, base]

/-- The element at a constant index: at a displacement, unless it lies too far away. -/
def constantElement (element : Ty) (base : Register) (i : Int) : Emit Value :=
  let displacement := i * element.size
  if displacement ≤ Word.maxDisplacement then
    return .mem element { base := .reg base, offset := .disp displacement } [base]
  else do
    let r ← acquire
    instr (.mov (.reg r .qword) (.imm (Word.signed 8 i)))
    scaledElement element base r

/-- The element at an index, from the register that holds the address of element 0. -/
def elementAt (element : Ty) (base : Register) : Item → Emit Value
  | .void => throw .voidIndex
  | .value (.const t n) => do
      let w ← scalarWidth t
      constantElement element base (Word.unsigned w.bytes n)
  | .value i => do
      let r ← extendIndex i
      scaledElement element base r

/-- The element of an array, or of what a pointer points to.  Indexes are unsigned. -/
def element (array index : Item) : Emit Value :=
  match array with
  | .void => throw (.notIndexed array)
  | .value (.const ..) => throw (.notIndexed array)
  | .value a =>
      match a.type.element? with
      | none => throw .notIndexable
      | some element => do
          let base ← elementBase a
          elementAt element base index

/-- Stores a value.  What comes from memory, and a constant that does not fit a store, goes
through a scratch register. -/
def store (w : Width) (address : Address) (v : Value) : Emit Unit :=
  match v with
  | .mem _ source _ =>
      withScratch fun tmp => do
        instr (.mov (.reg tmp w) (.mem none source))
        instr (.mov (.mem none address) (.reg tmp w))
  | v =>
      if needsRegister v w then
        withScratch fun tmp => do
          instr (.mov (.reg tmp .qword) (← operand v))
          instr (.mov (.mem none address) (.reg tmp .qword))
      else do
        instr (.mov (.mem (some w) address) (← operand v))

/-- Stores a value and yields the target, which stays live. -/
def assignment (target source : Item) : Emit Value :=
  match target, source with
  | .value (.mem ..), .void => throw .voidSource
  | .value (.mem t address holds), .value v => do
      let w ← scalarWidth t
      store w address v
      discard v
      return .mem t address holds
  | _, _ => throw (.notAssigned target)

def newlineLabel : String := "tern$newl"

/-- Writes a line feed to standard output; the system call also destroys `rcx` and `r11`. -/
def writeNewline : Emit Unit :=
  reserving [.rax, .rcx, .rdx, .rsi, .rdi, .r11] do
    instr (.mov (.reg .rax .qword) (.imm 1))
    instr (.mov (.reg .rdi .qword) (.imm 1))
    instr (.mov (.reg .rsi .qword) (.label newlineLabel))
    instr (.mov (.reg .rdx .qword) (.imm 1))
    instr .syscall

/-- The value of a digit: its code less that of `0`. -/
def digitValue (digit : Item) (t : Ty) : Emit Value := do
  let r ← acquire
  instr (.mov (.reg r .byte) (← itemOperand digit))
  instr (.combine .sub (.reg r .byte) (.imm 48))
  return .reg t r

def perform (p : Procedure) (args : List Item) : Emit Item :=
  match p.routine, args, p.returns with
  | .writeEln, _, _ => do
      writeNewline
      return .void
  | .digitToInt, arg :: _, some t => do
      let v ← digitValue arg t
      return .value v
  | .digitToInt, _, _ => throw .malformedCall
  | .other name, _, _ => throw (.unknownProcedure name)

/-- Calls a procedure.  Its arguments are released even when the call fails. -/
def call (p : Procedure) (args : List Item) : Emit Item :=
  tryFinally (perform p args) (args.forM discardItem)

end Tern.Emit
