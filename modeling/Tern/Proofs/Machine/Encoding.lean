import Tern.Proofs.Machine.Semantics

/-!
# Encodable instructions

What an assembler asks of an instruction, said of the instruction alone: its form, how many of
its operands are in memory, which widths meet, how large numbers may be and what an address may
be made of.  The forms are those that the compiler writes; for these, and for them alone, the
machine has a meaning.
-/

namespace Tern

/-- The bits of an immediate; an instruction on eight bytes has room for four. -/
def Width.immediateBits : Width → Nat
  | byte => 8
  | word => 16
  | dword | qword => 32

/-- The numbers that an immediate of an instruction of width `w` can be, in two's complement. -/
def Width.Immediate (w : Width) (v : Int) : Prop :=
  -(2 ^ (w.immediateBits - 1)) ≤ v ∧ v < 2 ^ (w.immediateBits - 1)

/-- The numbers that can be moved into the low `w` part of a register, signed or not. -/
def Width.Movable (w : Width) (v : Int) : Prop :=
  -(2 ^ (8 * w.bytes - 1)) ≤ v ∧ v < 2 ^ (8 * w.bytes)

namespace Address

/-- Displacements have four bytes, scales are one of four, and the registers are those that the
compiler hands out and the frame pointer. -/
structure InReach (m : Address) : Prop where
  displacement : ∀ n, m.offset = .disp n → -(2 ^ 31 - 1) ≤ n ∧ n ≤ 2 ^ 31 - 1
  scale : m.scale ∈ [1, 2, 4, 8]
  registers : ∀ r ∈ m.registers, r ∈ Register.pool ∨ r = .rbp

end Address

namespace Operand

def isMemory : Operand → Bool
  | mem .. => true
  | _ => false

def width? : Operand → Option Width
  | reg _ w => some w
  | ah => some .byte
  | mem size _ => size
  | imm _ | mask _ | label _ => none

def number? : Operand → Option Int
  | imm v => some v
  | mask bytes => some (2 ^ (8 * bytes) - 1)
  | reg .. | ah | label _ | mem .. => none

/-- The sources of a move into the low `w` part of a register. -/
inductive Loads (w : Width) : Operand → Prop
  | reg (r : Register) : Loads w (.reg r w)
  | ah (h : w = .byte) : Loads w .ah
  | imm {v : Int} (h : w.Movable v) : Loads w (.imm v)
  | label (name : String) (h : w = .qword) : Loads w (.label name)
  | mem {size : Option Width} (m : Address) (h : size = none ∨ size = some w) :
      Loads w (.mem size m)

/-- The sources of a two-operand instruction on the low `w` part of a register. -/
inductive Combines (w : Width) : Operand → Prop
  | reg (r : Register) : Combines w (.reg r w)
  | imm {v : Int} (h : w.Immediate v) : Combines w (.imm v)
  | mask {bytes : Nat} (h : w.Immediate (2 ^ (8 * bytes) - 1)) : Combines w (.mask bytes)
  | mem {size : Option Width} (m : Address) (h : size = none ∨ size = some w) :
      Combines w (.mem size m)

/-- The operands that say by themselves that they have width `w`. -/
inductive Stands (w : Width) : Operand → Prop
  | reg (r : Register) : Stands w (.reg r w)
  | mem (m : Address) : Stands w (.mem (some w) m)

end Operand

namespace Instr

/-- The forms of instruction that the compiler writes. -/
inductive Formed : Instr → Prop
  | move {r : Register} {w : Width} {o : Operand} (h : o.Loads w) : Formed (.mov (.reg r w) o)
  | store {size : Option Width} {m : Address} {r : Register} {w : Width}
      (h : size = none ∨ size = some w) : Formed (.mov (.mem size m) (.reg r w))
  | storeNumber {w : Width} {m : Address} {v : Int} (h : w.Immediate v) :
      Formed (.mov (.mem (some w) m) (.imm v))
  | extend {r : Register} {w w' : Width} {o : Operand} (h : o.Stands w') (hw : w'.bytes < 4)
      (hw' : w'.bytes < w.bytes) : Formed (.movzx (.reg r w) o)
  | lea {r : Register} {m : Address} : Formed (.lea r m)
  | combine {op : Combine} {r : Register} {w : Width} {o : Operand} (h : o.Combines w) :
      Formed (.combine op (.reg r w) o)
  | neg {r : Register} {w : Width} : Formed (.neg (.reg r w))
  | shiftNumber {dir : Direction} {r : Register} {w : Width} {v : Int} (h : 0 ≤ v)
      (h' : v ≤ 255) : Formed (.shift dir (.reg r w) (.imm v))
  | shiftCount {dir : Direction} {r : Register} {w : Width} :
      Formed (.shift dir (.reg r w) (.reg .rcx .byte))
  | imul {r : Register} {factor : Nat} (h : factor < 2 ^ 31) : Formed (.imul r factor)
  | mul {w : Width} {o : Operand} (h : o.Stands w) : Formed (.mul o)
  | div {w : Width} {o : Operand} (h : o.Stands w) : Formed (.div o)
  | push {r : Register} : Formed (.push r)
  | pop {r : Register} : Formed (.pop r)
  | syscall : Formed .syscall

/-- Only these instructions have operands of different widths: one widens its source, one does
not look at the memory at all, and a shift takes its count from a byte. -/
def mixesWidths : Instr → Bool
  | movzx .. | lea .. | shift .. => true
  | _ => false

/-- The number `v` may stand in the instruction. -/
def Takes (v : Int) : Instr → Prop
  | mov (.reg _ w) _ => w.Movable v
  | mov (.mem (some w) _) _ | combine _ (.reg _ w) _ => w.Immediate v
  | imul .. => Width.dword.Immediate v
  | shift .. => 0 ≤ v ∧ v ≤ 255
  | _ => False

/-- What an assembler asks of an instruction before it can encode it. -/
structure Encodable (i : Instr) : Prop where
  formed : i.Formed
  oneMemory : (i.operands.filter Operand.isMemory).length ≤ 1
  oneWidth : i.mixesWidths = false → ∃ w, (∀ o ∈ i.operands, ∀ w', o.width? = some w' → w' = w) ∧
    ∀ m, .mem none m ∈ i.operands → ∃ r, .reg r w ∈ i.operands
  numbers : ∀ o ∈ i.operands, ∀ v, o.number? = some v → i.Takes v
  labels : ∀ name, .label name ∈ i.operands → ∃ r, i = .mov (.reg r .qword) (.label name)
  addresses : ∀ size m, .mem size m ∈ i.operands → m.InReach

end Instr

namespace Operand

variable {w w' : Width} {o : Operand} {v : Int}

theorem Loads.width (h : o.Loads w) (hw : o.width? = some w') : w' = w := by
  cases h with
  | reg r => exact (Option.some.inj hw).symm
  | ah h => exact (Option.some.inj hw).symm.trans h.symm
  | imm h | label name h => cases hw
  | mem m h =>
      rcases h with rfl | rfl
      · cases hw
      · exact (Option.some.inj hw).symm

theorem Combines.width (h : o.Combines w) (hw : o.width? = some w') : w' = w := by
  cases h with
  | reg r => exact (Option.some.inj hw).symm
  | imm h | mask h => cases hw
  | mem m h =>
      rcases h with rfl | rfl
      · cases hw
      · exact (Option.some.inj hw).symm

theorem Stands.width (h : o.Stands w) (hw : o.width? = some w') : w' = w := by
  cases h with
  | reg r => exact (Option.some.inj hw).symm
  | mem m => exact (Option.some.inj hw).symm

theorem Loads.number (h : o.Loads w) (hv : o.number? = some v) : w.Movable v := by
  cases h with
  | imm h => exact Option.some.inj hv ▸ h
  | reg r | ah h | label name h | mem m h => cases hv

theorem Combines.number (h : o.Combines w) (hv : o.number? = some v) : w.Immediate v := by
  cases h with
  | imm h | mask h => exact Option.some.inj hv ▸ h
  | reg r | mem m h => cases hv

theorem Stands.number (h : o.Stands w) : o.number? = none := by
  cases h <;> rfl

end Operand

namespace Instr

variable {i : Instr}

namespace Formed

theorem oneMemory (h : i.Formed) : (i.operands.filter Operand.isMemory).length ≤ 1 := by
  have hone (o : Operand) : ([o].filter Operand.isMemory).length ≤ 1 := List.length_filter_le _ _
  cases h with
  | move h | extend h | combine h | mul h | div h => exact hone _
  | _ => simp [operands, Operand.isMemory, List.filter]

theorem oneWidth (h : i.Formed) (hmixes : i.mixesWidths = false) :
    ∃ w, (∀ o ∈ i.operands, ∀ w', o.width? = some w' → w' = w) ∧
      ∀ m, .mem none m ∈ i.operands → ∃ r, .reg r w ∈ i.operands := by
  cases h with
  | @move r w o h =>
      refine ⟨w, ?_, fun _ _ => ⟨r, by simp [operands]⟩⟩
      simpa [operands, Operand.width?] using fun w' => h.width
  | @combine op r w o h =>
      refine ⟨w, ?_, fun _ _ => ⟨r, by simp [operands]⟩⟩
      simpa [operands, Operand.width?] using fun w' => h.width
  | @store size m r w h =>
      refine ⟨w, ?_, fun _ _ => ⟨r, by simp [operands]⟩⟩
      rcases h with rfl | rfl <;> simp [operands, Operand.width?]
  | @storeNumber w m v h => exact ⟨w, by simp [operands, Operand.width?]⟩
  | @neg r w => exact ⟨w, by simp [operands, Operand.width?]⟩
  | @mul w o h | @div w o h =>
      refine ⟨w, ?_, ?_⟩
      · simpa [operands] using fun w' => h.width
      · cases h <;> simp [operands]
  | imul h | push | pop => exact ⟨.qword, by simp [operands, Operand.width?]⟩
  | syscall => exact ⟨.qword, by simp [operands]⟩
  | extend | lea | shiftNumber | shiftCount => cases hmixes

theorem numbers (h : i.Formed) : ∀ o ∈ i.operands, ∀ v, o.number? = some v → i.Takes v := by
  cases h with
  | @move r w o h =>
      simpa [operands, Operand.number?, Takes] using fun v => h.number
  | @combine op r w o h =>
      simpa [operands, Operand.number?, Takes] using fun v => h.number
  | @storeNumber w m v h => simpa [operands, Operand.number?, Takes] using h
  | shiftNumber h h' => simpa [operands, Operand.number?, Takes] using ⟨h, h'⟩
  | @imul r factor h =>
      have hfits : Width.dword.Immediate factor := by
        constructor <;> simp only [Width.immediateBits] <;> omega
      simpa [operands, Operand.number?, Takes] using hfits
  | extend h => cases h <;> simp [operands, Operand.number?]
  | mul h | div h => simp [operands, h.number]
  | store | lea | neg | shiftCount | push | pop | syscall => simp [operands, Operand.number?]

theorem labels (h : i.Formed) :
    ∀ name, .label name ∈ i.operands → ∃ r, i = .mov (.reg r .qword) (.label name) := by
  intro name hname
  cases h with
  | @move r w o h =>
      simp only [operands, List.mem_cons, List.not_mem_nil, or_false, reduceCtorEq,
        false_or] at hname
      subst hname
      cases h with
      | label _ h => exact ⟨r, by rw [h]⟩
  | combine h | extend h | mul h | div h => cases h <;> simp [operands] at hname
  | _ => simp [operands] at hname

end Formed

/-- All that an assembler asks for follows from the form of an instruction, its addresses
apart. -/
theorem Formed.encodable (h : i.Formed)
    (haddresses : ∀ size m, .mem size m ∈ i.operands → m.InReach) : i.Encodable :=
  ⟨h, h.oneMemory, h.oneWidth, h.numbers, h.labels, haddresses⟩

end Instr

/-! ## Meaning -/

namespace Machine

variable {p : Platform} {s : State} {w : Width} {o : Operand} {v : Int}

theorem encodable_of_movable (h : w.Movable v) : encodable true w v = true := by
  obtain ⟨hlow, hhigh⟩ := h
  simp only [encodable, Bool.true_eq_false, and_false, if_false, Bool.and_eq_true,
    decide_eq_true_eq]
  exact ⟨hlow, hhigh⟩

theorem encodable_of_immediate (h : w.Immediate v) : encodable false w v = true := by
  obtain ⟨hlow, hhigh⟩ := h
  by_cases hw : w = .qword
  · rw [encodable, if_pos ⟨hw, rfl⟩, Bool.and_eq_true, decide_eq_true_eq, decide_eq_true_eq]
    subst hw
    exact ⟨hlow, hhigh⟩
  · have hbits : w.immediateBits = 8 * w.bytes := by
      cases w with
      | qword => exact absurd rfl hw
      | byte | word | dword => rfl
    have hle : (2 : Int) ^ (8 * w.bytes - 1) ≤ 2 ^ (8 * w.bytes) := by cases w <;> decide
    rw [encodable, if_neg fun h => hw h.1, Bool.and_eq_true, decide_eq_true_eq, decide_eq_true_eq]
    rw [hbits] at hlow hhigh
    exact ⟨hlow, by omega⟩

theorem source_of_loads (h : o.Loads w) : ∃ n, s.source p true w o = some n := by
  cases h with
  | reg r => exact ⟨_, if_pos rfl⟩
  | ah h => exact ⟨_, if_pos h⟩
  | imm h => exact ⟨_, if_pos (encodable_of_movable h)⟩
  | label name h => exact ⟨_, if_pos ⟨h, rfl⟩⟩
  | mem m h => exact ⟨_, if_pos h⟩

theorem source_of_combines (h : o.Combines w) : ∃ n, s.source p false w o = some n := by
  cases h with
  | reg r => exact ⟨_, if_pos rfl⟩
  | imm h | mask h => exact ⟨_, if_pos (encodable_of_immediate h)⟩
  | mem m h => exact ⟨_, if_pos h⟩

/-- Division may stop the machine, and a system call; every other form has a result. -/
theorem step_formed {i : Instr} (h : i.Formed) (hcall : i ≠ .syscall) :
    (∃ t, step p s i = .ok t) ∨
      ((∃ o, i = .div o) ∧ step p s i = .error ⟨.divideError, s⟩) := by
  cases h with
  | @move r w o h =>
      obtain ⟨n, hn⟩ := source_of_loads (p := p) (s := s) h
      exact .inl ⟨_, by rw [step, hn]; rfl⟩
  | @combine op r w o h =>
      obtain ⟨n, hn⟩ := source_of_combines (p := p) (s := s) h
      exact .inl ⟨_, by rw [step, hn]; rfl⟩
  | @store size m r w h =>
      rcases h with rfl | rfl
      · exact .inl ⟨_, rfl⟩
      · exact .inl ⟨_, if_pos rfl⟩
  | storeNumber h => exact .inl ⟨_, if_pos (encodable_of_immediate h)⟩
  | extend h hw hw' =>
      cases h with
      | reg q => exact .inl ⟨_, if_pos ⟨hw, hw'⟩⟩
      | mem m => exact .inl ⟨_, if_pos ⟨hw, hw'⟩⟩
  | lea => exact .inl ⟨_, rfl⟩
  | neg => exact .inl ⟨_, rfl⟩
  | shiftNumber h h' => exact .inl ⟨_, if_pos ⟨h, by omega⟩⟩
  | shiftCount => exact .inl ⟨_, rfl⟩
  | imul h => exact .inl ⟨_, if_pos h⟩
  | mul h =>
      cases h with
      | reg q => exact .inl ⟨_, rfl⟩
      | mem m => exact .inl ⟨_, rfl⟩
  | @div w o h =>
      have hdivide (n : Nat) : (∃ t, s.divide w n = .ok t) ∨
          s.divide w n = .error ⟨.divideError, s⟩ := by
        unfold State.divide
        split
        · exact .inr rfl
        · split
          · exact .inl ⟨_, rfl⟩
          · exact .inl ⟨_, rfl⟩
      cases h with
      | reg q => exact (hdivide _).imp_right fun h => ⟨⟨_, rfl⟩, h⟩
      | mem m => exact (hdivide _).imp_right fun h => ⟨⟨_, rfl⟩, h⟩
  | push => exact .inl ⟨_, rfl⟩
  | pop => exact .inl ⟨_, rfl⟩
  | syscall => exact absurd rfl hcall

/-- Instructions without a system call run to their end, or a division stops them. -/
theorem exec_formed {code : List Instr} (h : ∀ i ∈ code, i.Formed) (hcall : .syscall ∉ code) :
    (∃ t, exec p code s = .ok t) ∨
      ((∃ o, .div o ∈ code) ∧ ∃ t, exec p code s = .error ⟨.divideError, t⟩) := by
  induction code generalizing s with
  | nil => exact .inl ⟨s, rfl⟩
  | cons i code ih =>
      rw [List.forall_mem_cons] at h
      rw [List.mem_cons, not_or] at hcall
      rcases step_formed (p := p) (s := s) h.1 (Ne.symm hcall.1) with ⟨t, ht⟩ | ⟨⟨o, rfl⟩, ht⟩
      · rw [exec_cons_ok ht]
        exact (ih h.2 hcall.2).imp_right fun ⟨⟨o, ho⟩, h⟩ => ⟨⟨o, List.mem_cons_of_mem _ ho⟩, h⟩
      · exact .inr ⟨⟨o, List.mem_cons_self⟩, s, by rw [exec, ht]; rfl⟩

end Machine

end Tern
