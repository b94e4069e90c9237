import Tern.Emit.Access

/-!
# Sections and frames

The fixed parts of the output: the entry point, the sections, the data of a variable, and
the set-up and tear-down of the frame of locals.
-/

namespace Tern.Emit

def programHead : Emit Unit := do
  write .entryPoint
  write .blank

def dataHead : Emit Unit := do
  write .dataStart
  write (.data newlineLabel none .byte 10)

def textHead : Emit Unit := write .textStart

def frameBytes : Emit Nat := do
  match (← get).frames with
  | [] => throw .noFrame
  | total :: _ => return total

def enterProgram : Emit Unit := do
  modify fun a => { a with frames := 0 :: a.frames }
  write (.label entryLabel)

/-- Sets up a frame of `total` bytes, if there are any. -/
def setUpFrame (total : Nat) : Emit Unit :=
  if total = 0 then pure ()
  else do
    instr (.push .rbp)
    instr (.mov (.reg .rbp .qword) (.reg .rsp .qword))
    instr (.combine .sub (.reg .rsp .qword) (.imm total))

/-- Takes down a frame of `total` bytes, if there are any. -/
def tearDownFrame (total : Nat) : Emit Unit :=
  if total = 0 then pure ()
  else do
    instr (.mov (.reg .rsp .qword) (.reg .rbp .qword))
    instr (.pop .rbp)

def exit : Emit Unit := do
  instr (.mov (.reg .rax .qword) (.imm 60))
  instr (.combine .xor (.reg .rdi .qword) (.reg .rdi .qword))
  instr .syscall

def leaveProgram : Emit Unit := do
  match (← get).frames with
  | [] => throw .noFrameToLeave
  | total :: outer =>
      modify fun a => { a with frames := outer }
      tearDownFrame total
      exit

/-- Makes `total` the size of the innermost frame. -/
def openFrame (total : Nat) : Emit Unit :=
  if Ty.sizeLimit < total then throw (.frameTooLarge total)
  else do
    modify fun a => { a with frames := total :: a.frames.tail }
    setUpFrame total

/-- What the label of a global that is not exported starts with. -/
def globalLabelStart : String := "tern$global$"

def globalLabel (v : Variable) : String :=
  if v.exported then v.name else globalLabelStart ++ v.name

/-- The width of the units that a variable of type `t` is made of. -/
def unitWidth (t : Ty) : Emit Width :=
  match Width.ofBytes? t.unit.size with
  | some w => pure w
  | none => throw (.unitSize t.unit.size)

/-- Defines the data of a global: one unit, or as many as an array holds. -/
def defineGlobal (label : String) (t : Ty) (unit : Width) : Emit Unit :=
  write (.data label (if t.isArray then some (t.size / unit.bytes) else none) unit 0)

end Tern.Emit
