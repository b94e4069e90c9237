/-!
# Registers

The general-purpose registers the compiler writes, the narrower views of each, and the
names that an assembler would take for a register.
-/

namespace Tern

/-- The number of bytes that an instruction works on. -/
inductive Width where
  | byte
  | word
  | dword
  | qword
  deriving DecidableEq

namespace Width

def bytes : Width → Nat
  | byte => 1
  | word => 2
  | dword => 4
  | qword => 8

/-- The width of a scalar of `n` bytes, if there is one. -/
def ofBytes? : Nat → Option Width
  | 1 => some byte
  | 2 => some word
  | 4 => some dword
  | 8 => some qword
  | _ => none

/-- The word that sizes a memory operand. -/
def keyword : Width → String
  | byte => "byte"
  | word => "word"
  | dword => "dword"
  | qword => "qword"

/-- The directive that defines data of this width. -/
def directive : Width → String
  | byte => "db"
  | word => "dw"
  | dword => "dd"
  | qword => "dq"

def all : List Width := [byte, word, dword, qword]

theorem ofBytes?_eq_some_iff {n : Nat} {w : Width} : ofBytes? n = some w ↔ n = w.bytes := by
  constructor
  · intro h
    unfold ofBytes? at h
    split at h <;> simp_all <;> subst h <;> rfl
  · rintro rfl
    cases w <;> rfl

end Width

inductive Register where
  | rax
  | rbx
  | rcx
  | rdx
  | rsi
  | rdi
  | rsp
  | rbp
  | r8
  | r9
  | r10
  | r11
  deriving DecidableEq

namespace Register

def all : List Register := [rax, rbx, rcx, rdx, rsi, rdi, rsp, rbp, r8, r9, r10, r11]

/-- The registers handed out for temporaries, in the order in which they are tried. -/
def pool : List Register := [r8, r9, r10, r11, rdx, rbx, rcx, rsi, rdi]

/-- The name of the low `w` part of a register. -/
def view : Register → Width → String
  | rax, .byte => "al" | rax, .word => "ax" | rax, .dword => "eax" | rax, .qword => "rax"
  | rbx, .byte => "bl" | rbx, .word => "bx" | rbx, .dword => "ebx" | rbx, .qword => "rbx"
  | rcx, .byte => "cl" | rcx, .word => "cx" | rcx, .dword => "ecx" | rcx, .qword => "rcx"
  | rdx, .byte => "dl" | rdx, .word => "dx" | rdx, .dword => "edx" | rdx, .qword => "rdx"
  | rsi, .byte => "sil" | rsi, .word => "si" | rsi, .dword => "esi" | rsi, .qword => "rsi"
  | rdi, .byte => "dil" | rdi, .word => "di" | rdi, .dword => "edi" | rdi, .qword => "rdi"
  | rsp, .byte => "spl" | rsp, .word => "sp" | rsp, .dword => "esp" | rsp, .qword => "rsp"
  | rbp, .byte => "bpl" | rbp, .word => "bp" | rbp, .dword => "ebp" | rbp, .qword => "rbp"
  | r8, .byte => "r8b" | r8, .word => "r8w" | r8, .dword => "r8d" | r8, .qword => "r8"
  | r9, .byte => "r9b" | r9, .word => "r9w" | r9, .dword => "r9d" | r9, .qword => "r9"
  | r10, .byte => "r10b" | r10, .word => "r10w" | r10, .dword => "r10d" | r10, .qword => "r10"
  | r11, .byte => "r11b" | r11, .word => "r11w" | r11, .dword => "r11d" | r11, .qword => "r11"

def name (r : Register) : String := r.view .qword

def ofName? (name : String) : Option Register :=
  all.find? fun r => r.name == name

theorem mem_all (r : Register) : r ∈ all := by
  cases r <;> decide

theorem pool_nodup : pool.Nodup := by decide

end Register

/-- Every name of a general-purpose register or of a part of one, including the registers
the compiler never uses. -/
def registerNames : List String :=
  (Register.all.flatMap fun r => Width.all.map r.view) ++
    ["r12", "r13", "r14", "r15"].flatMap (fun r => [r, r ++ "b", r ++ "w", r ++ "d"]) ++
    ["ah", "bh", "ch", "dh", "rip"]

/-- The other words that an assembler does not read as a label. -/
def directiveWords : List String :=
  ["byte", "word", "dword", "qword", "rel", "abs", "global", "section", "times",
    "db", "dw", "dd", "dq"]

def entryLabel : String := "_start"

/-- Whether a name, in any case, names a register.  Lowering ASCII letters is enough, since no
other letter has one of a register's letters as its lower case. -/
def namesRegister (name : String) : Bool :=
  registerNames.contains name.toLower

/-- Whether a name cannot stand in assembly output as the label of a variable. -/
def unusableLabel (name : String) : Bool :=
  name == entryLabel || namesRegister name || directiveWords.contains name.toLower

end Tern
