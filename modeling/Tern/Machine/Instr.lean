import Tern.Machine.Register

/-!
# Instructions

The instruction forms that the compiler emits, as data, and their text.  Sizes are part of
an operand, so that the meaning of an instruction can be read off without its text.
-/

namespace Tern

/-- What an address starts from. -/
inductive Base where
  | label (name : String)
  | reg (r : Register)
  deriving DecidableEq

/-- What is added to the scaled base of an address. -/
inductive Offset where
  | disp (n : Int)
  | reg (r : Register)
  deriving DecidableEq

/-- The memory operand `[base*scale+offset]`. -/
structure Address where
  base : Base
  scale : Int := 1
  offset : Offset := .disp 0
  deriving DecidableEq

namespace Base

def render : Base → String
  | label name => name
  | reg r => r.name

end Base

namespace Offset

def render : Offset → String
  | reg r => "+" ++ r.name
  | disp n => if 0 < n then "+" ++ toString n else if n < 0 then toString n else ""

end Offset

namespace Address

def render (a : Address) : String :=
  let scale := if a.scale = 1 then "" else "*" ++ toString a.scale
  "[" ++ a.base.render ++ scale ++ a.offset.render ++ "]"

def registers (a : Address) : List Register :=
  (match a.base with | .label _ => [] | .reg r => [r]) ++
    (match a.offset with | .disp _ => [] | .reg r => [r])

end Address

inductive Operand where
  /-- The low part of a register. -/
  | reg (r : Register) (w : Width)
  /-- The second byte of `rax`. -/
  | ah
  /-- A number, written in decimal. -/
  | imm (v : Int)
  /-- The number whose low `bytes` bytes are all ones, written in hexadecimal. -/
  | mask (bytes : Nat)
  /-- The address of a label. -/
  | label (name : String)
  /-- Memory, with its size spelt out where no register gives it. -/
  | mem (size : Option Width) (address : Address)
  deriving DecidableEq

namespace Operand

def render : Operand → String
  | reg r w => r.view w
  | ah => "ah"
  | imm v => toString v
  | mask bytes => "0x" ++ String.join (List.replicate bytes "FF")
  | label name => name
  | mem none a => a.render
  | mem (some w) a => w.keyword ++ " " ++ a.render

end Operand

/-- Two-operand instructions that combine the destination with the source. -/
inductive Combine where
  | add
  | sub
  | and
  | xor
  deriving DecidableEq

def Combine.mnemonic : Combine → String
  | add => "add"
  | sub => "sub"
  | and => "and"
  | xor => "xor"

inductive Direction where
  | left
  | right
  deriving DecidableEq

def Direction.mnemonic : Direction → String
  | left => "shl"
  | right => "shr"

inductive Instr where
  | mov (dst src : Operand)
  | movzx (dst src : Operand)
  | lea (dst : Register) (src : Address)
  | combine (op : Combine) (dst src : Operand)
  | neg (dst : Operand)
  | shift (dir : Direction) (dst count : Operand)
  | imul (dst : Register) (factor : Nat)
  | mul (src : Operand)
  | div (src : Operand)
  | push (r : Register)
  | pop (r : Register)
  | syscall
  deriving DecidableEq

namespace Instr

def mnemonic : Instr → String
  | mov .. => "mov"
  | movzx .. => "movzx"
  | lea .. => "lea"
  | combine op .. => op.mnemonic
  | neg _ => "neg"
  | shift dir .. => dir.mnemonic
  | imul .. => "imul"
  | mul _ => "mul"
  | div _ => "div"
  | push _ => "push"
  | pop _ => "pop"
  | syscall => "syscall"

/-- The operands in the order in which they are written, destination first. -/
def operands : Instr → List Operand
  | mov dst src | movzx dst src | combine _ dst src | shift _ dst src => [dst, src]
  | lea dst src => [.reg dst .qword, .mem none src]
  | neg dst => [dst]
  | imul dst factor => [.reg dst .qword, .reg dst .qword, .imm factor]
  | mul src | div src => [src]
  | push r | pop r => [.reg r .qword]
  | syscall => []

def render (i : Instr) : String :=
  match i.operands with
  | [] => i.mnemonic
  | ops => i.mnemonic ++ " " ++ String.intercalate ", " (ops.map Operand.render)

end Instr

end Tern
