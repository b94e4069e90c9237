import Tern.Proofs.Machine.Operation

/-!
# Constants and running code agree

Arithmetic on constants is carried out while compiling, all other arithmetic by the emitted
instructions.  Both give the same numbers, whatever operands are constants, in registers or in
memory.
-/

namespace Tern

namespace Const

variable {t lt rt : Ty} {x y : Nat}

theorem reduce_natCast (t : Ty) (n : Nat) : reduce t n = (n % 2 ^ (8 * t.size) : Nat) := by
  rw [reduce, Word.unsigned_eq_emod, Int.natCast_emod]

theorem reduce_of_lt (h : x < 2 ^ (8 * t.size)) : reduce t x = x := by
  rw [reduce_natCast, Nat.mod_eq_of_lt h]

theorem reduce_sub (h : y ≤ 2 ^ (8 * t.size)) :
    reduce t ((x : Int) - y) = ((x + 2 ^ (8 * t.size) - y) % 2 ^ (8 * t.size) : Nat) := by
  have hcast : ((x + 2 ^ (8 * t.size) - y : Nat) : Int) =
      (x : Int) - y + (2 ^ (8 * t.size) : Nat) := by omega
  rw [reduce, Word.unsigned_eq_emod, Int.natCast_emod, hcast, Int.add_emod_right]

theorem reduce_neg (h : y ≤ 2 ^ (8 * t.size)) :
    reduce t (-(y : Int)) = ((2 ^ (8 * t.size) - y) % 2 ^ (8 * t.size) : Nat) := by
  have hsub := reduce_sub (x := 0) h
  rwa [Int.natCast_zero, Int.zero_sub, Nat.zero_add] at hsub

theorem lt_wider_left (rt : Ty) (h : x < 2 ^ (8 * lt.size)) : x < 2 ^ (8 * (lt.wider rt).size) := by
  refine Nat.lt_of_lt_of_le h (Nat.pow_le_pow_right (by decide) ?_)
  unfold Ty.wider
  split <;> omega

theorem lt_wider_right (lt : Ty) (h : y < 2 ^ (8 * rt.size)) :
    y < 2 ^ (8 * (lt.wider rt).size) := by
  refine Nat.lt_of_lt_of_le h (Nat.pow_le_pow_right (by decide) ?_)
  unfold Ty.wider
  split <;> omega

theorem shiftCount (t : Ty) (y : Nat) :
    ((y : Int) % shiftModulus t).toNat = y % if t.size = 8 then 64 else 32 := by
  unfold shiftModulus
  split <;> omega

theorem fold_eq (op : BinaryOp) (hx : x < 2 ^ (8 * lt.size)) (hy : y < 2 ^ (8 * rt.size)) :
    fold op lt x rt y =
      match op.result? (lt.wider rt).size x y with
      | some n => .ok (lt.wider rt, (n : Int))
      | none => .error .divisionByZero := by
  have hx' := lt_wider_left rt hx
  have hy' := lt_wider_right lt hy
  generalize hwider : lt.wider rt = t at hx' hy'
  simp only [fold, hwider, reduce_of_lt hx', reduce_of_lt hy']
  have hquotient : x / y < 2 ^ (8 * t.size) := Nat.lt_of_le_of_lt (Nat.div_le_self _ _) hx'
  have hremainder : x % y < 2 ^ (8 * t.size) := Nat.lt_of_le_of_lt (Nat.mod_le _ _) hx'
  cases op with
  | add =>
      simp only [evaluate?, BinaryOp.result?]
      rw [← Int.natCast_add, reduce_natCast]
  | sub =>
      simp only [evaluate?, BinaryOp.result?]
      rw [reduce_sub (Nat.le_of_lt hy')]
  | mul =>
      simp only [evaluate?, BinaryOp.result?]
      rw [← Int.natCast_mul, reduce_natCast]
  | div =>
      by_cases hzero : y = 0
      · simp [evaluate?, BinaryOp.result?, hzero]
      · have hzero' : (y : Int) ≠ 0 := by omega
        simp only [evaluate?, BinaryOp.result?, hzero, hzero', if_false]
        rw [← Int.natCast_ediv, reduce_of_lt hquotient]
  | mod =>
      by_cases hzero : y = 0
      · simp [evaluate?, BinaryOp.result?, hzero]
      · have hzero' : (y : Int) ≠ 0 := by omega
        simp only [evaluate?, BinaryOp.result?, hzero, hzero', if_false]
        rw [← Int.natCast_emod, reduce_of_lt hremainder]
  | shl =>
      simp only [evaluate?, BinaryOp.result?, shiftCount]
      have hcast : ∀ k, (x : Int) * 2 ^ k = ((x * 2 ^ k : Nat) : Int) := by simp
      rw [Int.shiftLeft_eq, hcast, reduce_natCast]
  | shr =>
      simp only [evaluate?, BinaryOp.result?, shiftCount]
      rw [Int.shiftRight_eq_div_pow, ← Int.natCast_ediv,
        reduce_of_lt (Nat.lt_of_le_of_lt (Nat.div_le_self _ _) hx')]

end Const

namespace Machine

/-- From `a`, the operation succeeds with a value of the kind `kind` that holds `n` once the
instructions written have been executed from `s`.  It may run out of registers instead, but not
where `need` of them are spare. -/
def Delivers (p : Platform) (a : Assembly) (s : State) (operation : Emit Value) (need : Nat)
    (kind : Value → Prop) (n : Int) : Prop :=
  (a.spare < need ∧ ∃ b, operation a = .error .poolExhausted b) ∨
    ∃ v b t m, operation a = .ok v b ∧ kind v ∧ Runs p a s b (.ok t) ∧
      Holds p (s.regs .rsp) t v m ∧ (m : Int) = n

theorem delivers_of_uses {p : Platform} {a : Assembly} {s : State} {operation : Emit Value}
    {need cost : Nat} {kind : Value → Prop} {n : Int} (huses : Emit.Uses operation need cost)
    (h : ∀ v b, operation a = .ok v b → ∃ t m, kind v ∧ Runs p a s b (.ok t) ∧
      Holds p (s.regs .rsp) t v m ∧ (m : Int) = n) : Delivers p a s operation need kind n := by
  cases hrun : operation a with
  | error e b =>
      obtain ⟨rfl, hspare⟩ := huses.fails hrun
      exact .inl ⟨hspare, b, hrun⟩
  | ok v b =>
      obtain ⟨t, m, hresult⟩ := h v b hrun
      exact .inr ⟨v, b, t, m, hrun, hresult⟩

/-- Constant arithmetic and emitted code agree.  For every operator, every pair of types that it
admits and every way to hold two numbers of these types as constants, in registers of which only
the low bytes count, or in memory outside the bytes right below the stack pointer: the result is
in a register, has the type that folding the two numbers as constants gives, and holds the same
number.  Negation and conversion agree in the same way with their counterparts on constants. -/
theorem constants_agree_with_code (p : Platform) (a : Assembly) (s : State) (hpool : a.Pooled) :
    (∀ (op : BinaryOp) (lhs rhs : Value) (x y : Nat) (t : Ty) (n : Int),
      lhs.type.admitsWith op rhs.type = true → a.Owns (lhs.held ++ rhs.held) →
      lhs.Closed → rhs.Closed → Holds p (s.regs .rsp) s lhs x → Holds p (s.regs .rsp) s rhs y →
      Const.fold op lhs.type x rhs.type y = .ok (t, n) →
      Delivers p a s (Compile.operate op lhs rhs) 4 (fun v => ∃ r, v = .reg t r) n) ∧
    (∀ (v : Value) (x : Nat), v.type.isArray = false → v.isConst = false →
      a.Owns v.held → v.Closed → Holds p (s.regs .rsp) s v x →
      Delivers p a s (Emit.negate v) 1 (fun u => ∃ r, u = .reg v.type r)
        (Const.reduce v.type (-x))) ∧
    ∀ (v : Value) (t : Ty) (x : Nat), v.type.isArray = false → t.isArray = false →
      v.isConst = false → a.Owns v.held → v.Closed → Holds p (s.regs .rsp) s v x →
      Delivers p a s (Emit.convert v t) 1 (fun u => u.type = t) (Const.reduce t x) := by
  refine ⟨fun op lhs rhs x y t n hadmits hown hl hr hx hy hfold => ?_,
    fun v x harray hconst hown hclosed hx => ?_,
    fun v t x harray harray' hconst hown hclosed hx => ?_⟩
  · refine delivers_of_uses (Emit.operate_uses hadmits) fun v b hrun => ?_
    have hyields := operate_yields hrun hadmits hpool hown hl hr rfl hx hy
    have htype := Emit.operate_type hrun
    obtain ⟨_, r, rfl⟩ := Emit.operate_eq_reg hrun
    rw [Const.fold_eq op hx.lt hy.lt] at hfold
    cases hresult : op.result? (lhs.type.wider rhs.type).size x y with
    | none =>
        rw [hresult] at hfold
        cases hfold
    | some m =>
        rw [hresult] at hfold hyields
        cases hfold
        obtain ⟨u, hreaches, hholds⟩ := hyields
        exact ⟨u, m, ⟨r, congrArg (Value.reg · r) htype⟩, hreaches.runs, hholds, rfl⟩
  · obtain ⟨w, hw⟩ := Ty.exists_width harray
    refine delivers_of_uses (Emit.negate_uses hconst hw) fun u b hrun => ?_
    obtain ⟨t, hreaches, hholds⟩ := negate_reaches hrun hx
    obtain ⟨_, r, _, _, hv, -, -, -, -, rfl, -⟩ := Emit.negate_ok hrun
    cases hv
    exact ⟨t, _, ⟨r, rfl⟩, hreaches.runs, hholds, (Const.reduce_neg (Nat.le_of_lt hx.lt)).symm⟩
  · obtain ⟨w, hw⟩ := Ty.exists_width harray
    obtain ⟨w', hw'⟩ := Ty.exists_width harray'
    refine delivers_of_uses (Emit.convert_uses hconst hw hw') fun u b hrun => ?_
    obtain ⟨s', hreaches, hholds⟩ := convert_reaches hrun hpool hown hclosed hw hw' hx
    exact ⟨s', _, Emit.convert_type hrun, hreaches.runs, hholds, (Const.reduce_natCast t x).symm⟩

/-- Every label at address 0, and zeros after a system call. -/
def blankPlatform : Platform := ⟨fun _ => 0, fun _ _ => 0⟩

/-- Two registers in use, one of them the `rdx` that a division overwrites. -/
def busyAssembly : Assembly := { busy := [.rdx, .rcx] }

/-- The number 1000 in the low four bytes of `rdx` and 5 in the low byte of `rcx`, below other
bits. -/
def busyState : State where
  regs := fun r =>
    match r with
    | .rdx => 0xabcd000003e8
    | .rcx => 0xff05
    | .rsp => 0x1000
    | _ => 0
  mem := fun _ => 0
  output := []

theorem constants_agree_with_code_busy :
    Const.fold .mod (.builtin .int) 1000 (.builtin .byte) 7 = .ok (.builtin .int, 6) ∧
    Holds blankPlatform (busyState.regs .rsp) busyState (.reg (.builtin .int) .rdx) 1000 ∧
    Delivers blankPlatform busyAssembly busyState
      (Compile.operate .mod (.reg (.builtin .int) .rdx) (.const (.builtin .byte) 7)) 4
      (fun v => ∃ r, v = .reg (.builtin .int) r) 6 ∧
    Delivers blankPlatform busyAssembly busyState
      (Emit.negate (.value (.reg (.builtin .byte) .rcx))) 1
      (fun v => ∃ r, v = .reg (.builtin .byte) r) 251 ∧
    Delivers blankPlatform busyAssembly busyState
      (Emit.convert (.reg (.builtin .byte) .rcx) (.builtin .long)) 1
      (fun v => v.type = .builtin .long) 5 := by
  have hfold : Const.fold .mod (.builtin .int) 1000 (.builtin .byte) 7 = .ok (.builtin .int, 6) :=
    rfl
  have hrdx : Holds blankPlatform (busyState.regs .rsp) busyState (.reg (.builtin .int) .rdx)
    1000 := rfl
  have hrcx : Holds blankPlatform (busyState.regs .rsp) busyState (.reg (.builtin .byte) .rcx)
    5 := rfl
  have hpool : busyAssembly.Pooled := by
    unfold Assembly.Pooled
    decide
  have hseven : Holds blankPlatform (busyState.regs .rsp) busyState (.const (.builtin .byte) 7) 7 :=
    ⟨rfl, by decide⟩
  obtain ⟨hoperate, hnegate, hconvert⟩ :=
    constants_agree_with_code blankPlatform busyAssembly busyState hpool
  exact ⟨hfold, hrdx,
    hoperate .mod _ _ 1000 7 _ 6 rfl ⟨by decide, by decide⟩ trivial trivial hrdx hseven hfold,
    hnegate _ 5 rfl rfl ⟨by decide, by decide⟩ trivial hrcx,
    hconvert _ _ 5 rfl rfl rfl ⟨by decide, by decide⟩ trivial hrcx⟩

end Machine

end Tern
