import Tern.Machine.Instr
import Tern.Proofs.Machine.Memory

/-!
# Execution of instructions

The usual meaning of the instruction forms that the compiler writes.  Operands of one
instruction have one width, immediates must be encodable, and a form to which no meaning is
given here stops the machine as undefined.
-/

namespace Tern.Machine

/-- A system call that writes bytes to a file descriptor. -/
structure Event where
  descriptor : Nat
  bytes : List (BitVec 8)
  deriving DecidableEq

/-- The state of the machine, with what has been written so far. -/
@[ext]
structure State where
  regs : Register → BitVec 64
  mem : Memory
  output : List Event

/-- What a program cannot know: where its labels are, and what a system call leaves in the
registers that it destroys. -/
structure Platform where
  place : String → Addr
  leftover : State → Register → BitVec 64

/-- Why execution stops. -/
inductive Cause where
  | exited (status : Nat)
  | divideError
  | undefined
  deriving DecidableEq

structure Halt where
  cause : Cause
  state : State

/-- What a register holds after `n` is written to its low `w` part.  A four-byte write clears
the rest of the register, narrower ones keep it. -/
def merge (w : Width) (old : BitVec 64) (n : Nat) : BitVec 64 :=
  if w.bytes < 4 then
    BitVec.ofNat 64
      (old.toNat / 2 ^ (8 * w.bytes) * 2 ^ (8 * w.bytes) + n % 2 ^ (8 * w.bytes))
  else BitVec.ofNat 64 (n % 2 ^ (8 * w.bytes))

namespace State

def view (s : State) (r : Register) (w : Width) : Nat := (s.regs r).toNat % 2 ^ (8 * w.bytes)

def set (s : State) (r : Register) (w : Width) (n : Nat) : State :=
  { s with regs := fun q => if q = r then merge w (s.regs r) n else s.regs q }

def address (p : Platform) (s : State) (a : Address) : Addr :=
  (match a.base with
    | .label name => p.place name
    | .reg r => s.regs r) * BitVec.ofInt 64 a.scale +
  (match a.offset with
    | .disp n => BitVec.ofInt 64 n
    | .reg r => s.regs r)

def fetch (p : Platform) (s : State) (w : Width) (a : Address) : Nat :=
  load s.mem (s.address p a) w.bytes

def put (p : Platform) (s : State) (w : Width) (a : Address) (n : Nat) : State :=
  { s with mem := store s.mem (s.address p a) w.bytes n }

def stopped (s : State) (cause : Cause) : Except Halt State := .error ⟨cause, s⟩

end State

/-- Whether an immediate is encodable in an instruction of width `w`.  Only a move to a full
register takes all eight bytes; elsewhere four bytes are extended with their sign. -/
def encodable (toRegister : Bool) (w : Width) (v : Int) : Bool :=
  if w = .qword ∧ toRegister = false then decide (-(2 ^ 31) ≤ v) && decide (v < 2 ^ 31)
  else decide (-(2 ^ (8 * w.bytes - 1)) ≤ v) && decide (v < 2 ^ (8 * w.bytes))

/-- The `w` part of an integer in two's complement. -/
def wrap (w : Width) (v : Int) : Nat := (v % (2 ^ (8 * w.bytes) : Nat)).toNat

def State.source (p : Platform) (s : State) (toRegister : Bool) (w : Width) :
    Operand → Option Nat
  | .reg r w' => if w' = w then some (s.view r w) else none
  | .ah => if w = .byte then some ((s.regs .rax).toNat / 2 ^ 8 % 2 ^ 8) else none
  | .imm v => if encodable toRegister w v then some (wrap w v) else none
  | .mask bytes =>
      if encodable toRegister w (2 ^ (8 * bytes) - 1) then some (wrap w (2 ^ (8 * bytes) - 1))
      else none
  | .label name => if w = .qword ∧ toRegister then some (p.place name).toNat else none
  | .mem size a => if size = none ∨ size = some w then some (s.fetch p w a) else none

def combined (op : Combine) (w : Width) (x y : Nat) : Nat :=
  match op with
  | .add => x + y
  | .sub => x + 2 ^ (8 * w.bytes) - y
  | .and => x &&& y
  | .xor => x ^^^ y

/-- The result of a shift, which looks at the low five bits of its count, or at six for eight
bytes. -/
def shifted (dir : Direction) (w : Width) (x count : Nat) : Nat :=
  let count := count % if w = .qword then 64 else 32
  match dir with
  | .left => x * 2 ^ count
  | .right => x / 2 ^ count

namespace State

/-- Multiplies the accumulator; the product is twice as wide. -/
def multiply (s : State) (w : Width) (n : Nat) : State :=
  let product := s.view .rax w * n
  if w = .byte then s.set .rax .word product
  else (s.set .rax w product).set .rdx w (product / 2 ^ (8 * w.bytes))

/-- What `div` divides. -/
def dividend (s : State) (w : Width) : Nat :=
  if w = .byte then s.view .rax .word
  else s.view .rdx w * 2 ^ (8 * w.bytes) + s.view .rax w

/-- Divides the accumulator.  A quotient that does not fit is an error, too. -/
def divide (s : State) (w : Width) (n : Nat) : Except Halt State :=
  if n = 0 ∨ 2 ^ (8 * w.bytes) ≤ s.dividend w / n then s.stopped .divideError
  else if w = .byte then
    .ok (s.set .rax .word (s.dividend w / n + 2 ^ 8 * (s.dividend w % n)))
  else .ok ((s.set .rax w (s.dividend w / n)).set .rdx w (s.dividend w % n))

def push (s : State) (r : Register) : State :=
  { s with
    regs := fun q => if q = .rsp then s.regs .rsp - 8 else s.regs q
    mem := store s.mem (s.regs .rsp - 8) 8 (s.regs r).toNat }

def pop (s : State) (r : Register) : State :=
  { s with
    regs := fun q =>
      if q = r then BitVec.ofNat 64 (load s.mem (s.regs .rsp) 8)
      else if q = .rsp then s.regs .rsp + 8 else s.regs q }

/-- The system calls `write` and `exit`. -/
def systemCall (p : Platform) (s : State) : Except Halt State :=
  if (s.regs .rax).toNat = 1 then
    let bytes := (List.range (s.regs .rdx).toNat).map fun i =>
      s.mem (s.regs .rsi + BitVec.ofNat 64 i)
    .ok { s with
      regs := fun r => if r = .rax ∨ r = .rcx ∨ r = .r11 then p.leftover s r else s.regs r
      output := s.output ++ [⟨(s.regs .rdi).toNat, bytes⟩] }
  else if (s.regs .rax).toNat = 60 then s.stopped (.exited (s.regs .rdi).toNat)
  else s.stopped .undefined

/-- Writes a register, if the number to be written is defined. -/
def setIfSome (s : State) (r : Register) (w : Width) : Option Nat → Except Halt State
  | some n => .ok (s.set r w n)
  | none => s.stopped .undefined

end State

def step (p : Platform) (s : State) : Instr → Except Halt State
  | .mov (.reg r w) src => s.setIfSome r w (s.source p true w src)
  | .mov (.mem none a) (.reg r w) => .ok (s.put p w a (s.view r w))
  | .mov (.mem (some w) a) (.reg r w') =>
      if w' = w then .ok (s.put p w a (s.view r w)) else s.stopped .undefined
  | .mov (.mem (some w) a) (.imm v) =>
      if encodable false w v then .ok (s.put p w a (wrap w v)) else s.stopped .undefined
  | .movzx (.reg r w) (.reg q w') =>
      if w'.bytes < 4 ∧ w'.bytes < w.bytes then .ok (s.set r w (s.view q w'))
      else s.stopped .undefined
  | .movzx (.reg r w) (.mem (some w') a) =>
      if w'.bytes < 4 ∧ w'.bytes < w.bytes then .ok (s.set r w (s.fetch p w' a))
      else s.stopped .undefined
  | .lea r a => .ok (s.set r .qword (s.address p a).toNat)
  | .combine op (.reg r w) src =>
      s.setIfSome r w ((s.source p false w src).map (combined op w (s.view r w)))
  | .neg (.reg r w) => .ok (s.set r w (2 ^ (8 * w.bytes) - s.view r w))
  | .shift dir (.reg r w) (.imm n) =>
      if 0 ≤ n ∧ n < 2 ^ 8 then .ok (s.set r w (shifted dir w (s.view r w) n.toNat))
      else s.stopped .undefined
  | .shift dir (.reg r w) (.reg .rcx .byte) =>
      .ok (s.set r w (shifted dir w (s.view r w) (s.view .rcx .byte)))
  | .imul r factor =>
      if factor < 2 ^ 31 then .ok (s.set r .qword (s.view r .qword * factor))
      else s.stopped .undefined
  | .mul (.reg r w) => .ok (s.multiply w (s.view r w))
  | .mul (.mem (some w) a) => .ok (s.multiply w (s.fetch p w a))
  | .div (.reg r w) => s.divide w (s.view r w)
  | .div (.mem (some w) a) => s.divide w (s.fetch p w a)
  | .push r => .ok (s.push r)
  | .pop r => .ok (s.pop r)
  | .syscall => s.systemCall p
  | _ => s.stopped .undefined

/-- Executes instructions in order, up to the first that stops. -/
def exec (p : Platform) : List Instr → State → Except Halt State
  | [], s => .ok s
  | i :: is, s => step p s i >>= exec p is

/-! ## Registers -/

section

variable {s : State} {r q : Register} {w w' : Width} {n : Nat}

theorem two_pow_bytes_pos (k : Nat) : 0 < 2 ^ (8 * k) := Nat.two_pow_pos _

theorem two_pow_width_le (w : Width) : 2 ^ (8 * w.bytes) ≤ 2 ^ 64 := by
  cases w <;> decide

namespace State

@[simp] theorem mem_set : (s.set r w n).mem = s.mem := rfl

@[simp] theorem output_set : (s.set r w n).output = s.output := rfl

theorem regs_set_of_ne (h : q ≠ r) : (s.set r w n).regs q = s.regs q := if_neg h

theorem view_lt : s.view r w < 2 ^ (8 * w.bytes) := Nat.mod_lt _ (two_pow_bytes_pos _)

theorem view_set_of_ne (h : q ≠ r) : (s.set r w n).view q w' = s.view q w' := by
  rw [view, regs_set_of_ne h, view]

theorem view_mod (h : w.bytes ≤ w'.bytes) :
    s.view r w' % 2 ^ (8 * w.bytes) = s.view r w := by
  have hdvd : 2 ^ (8 * w.bytes) ∣ 2 ^ (8 * w'.bytes) := Nat.pow_dvd_pow 2 (by omega)
  rw [view, view, Nat.mod_mod_of_dvd _ hdvd]

/-- A write of at least four bytes gives the whole register. -/
theorem toNat_regs_set (h : 4 ≤ w.bytes) :
    ((s.set r w n).regs r).toNat = n % 2 ^ (8 * w.bytes) := by
  have hlt : n % 2 ^ (8 * w.bytes) < 2 ^ 64 :=
    Nat.lt_of_lt_of_le (Nat.mod_lt _ (two_pow_bytes_pos _)) (two_pow_width_le w)
  have hset : (s.set r w n).regs r = merge w (s.regs r) n := if_pos rfl
  rw [hset, merge, if_neg (by omega), BitVec.toNat_ofNat, Nat.mod_eq_of_lt hlt]

@[simp] theorem view_set : (s.set r w n).view r w = n % 2 ^ (8 * w.bytes) := by
  by_cases h : w.bytes < 4
  · have hset : (s.set r w n).regs r = merge w (s.regs r) n := if_pos rfl
    have hdvd : 2 ^ (8 * w.bytes) ∣ 2 ^ 64 := Nat.pow_dvd_pow 2 (by cases w <;> decide)
    rw [view, hset, merge, if_pos h, BitVec.toNat_ofNat, Nat.mod_mod_of_dvd _ hdvd,
      Nat.mul_add_mod_self_right, Nat.mod_mod]
  · rw [view, toNat_regs_set (by omega), Nat.mod_mod]

theorem address_congr {p : Platform} {t : State} {a : Address}
    (h : ∀ r ∈ a.registers, t.regs r = s.regs r) : t.address p a = s.address p a := by
  obtain ⟨base, scale, offset⟩ := a
  cases base <;> cases offset <;> simp_all [address, Address.registers]

end State

end

/-! ## Sequences of instructions -/

section

variable {p : Platform} {s t : State} {code more : List Instr}

theorem exec_append : exec p (code ++ more) s = exec p code s >>= exec p more := by
  induction code generalizing s with
  | nil => rfl
  | cons i is ih =>
      change step p s i >>= exec p (is ++ more) = (step p s i >>= exec p is) >>= exec p more
      cases step p s i with
      | error h => rfl
      | ok t => exact ih

theorem exec_cons_ok {i : Instr} (h : step p s i = .ok t) :
    exec p (i :: code) s = exec p code t := by
  rw [exec, h]
  rfl

theorem exec_append_ok (h : exec p code s = .ok t) :
    exec p (code ++ more) s = exec p more t := by
  rw [exec_append, h]
  rfl

theorem exec_append_error {halt : Halt} (h : exec p code s = .error halt) :
    exec p (code ++ more) s = .error halt := by
  rw [exec_append, h]
  rfl

theorem exec_singleton {i : Instr} : exec p [i] s = step p s i := by
  change step p s i >>= .ok = step p s i
  cases step p s i <;> rfl

end

end Tern.Machine
