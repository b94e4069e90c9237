import Tern.Proofs.Emit.Run

/-!
# What arithmetic writes

For every operation of arithmetic: the registers that it took, the instructions that it wrote
and the assembly that it left, whenever it succeeded.
-/

namespace Tern.Emit

variable {a b : Assembly}

theorem negate_ok {i : Item} {v : Value} (h : negate i a = .ok v b) :
    ∃ u r w o, i = .value u ∧ u.isConst = false ∧ a.firstFree? = some r ∧
      u.type.size = w.bytes ∧ u.Spelt o ∧ v = .reg u.type r ∧
      b = ((a.occupy r).extend [.mov (.reg r w) o, .neg (.reg r w)]).release u.held := by
  unfold negate at h
  cases i with
  | void => exact (throw_eq_ok.1 h).elim
  | value u =>
      cases u with
      | const t n => exact (throw_eq_ok.1 h).elim
      | reg t q | mem t m hs =>
          simp only [bind_eq_ok, acquire_eq_ok, scalarWidth_eq_ok, operand_eq_ok, instr_eq_ok,
            discard_eq_ok, pure_eq_ok] at h
          obtain ⟨r, _, ⟨hr, rfl⟩, w, _, ⟨hw, rfl⟩, o, _, ⟨ho, rfl⟩, _, _, rfl, _, _, rfl, _, _,
            rfl, rfl, rfl⟩ := h
          exact ⟨_, r, w, o, rfl, rfl, hr, hw, ho, rfl, by rw [Assembly.extend_extend]; rfl⟩

theorem zeroExtend_ok {r : Register} {source target : Ty} {u : Unit}
    (h : zeroExtend r source target a = .ok u b) :
    (source.size = 4 ∧ b = a.extend [.mov (.reg r .dword) (.reg r .dword)]) ∨
      ∃ w, source.size ≠ 4 ∧ target.size = w.bytes ∧
        b = a.extend [.combine .and (.reg r w) (.mask source.size)] := by
  unfold zeroExtend at h
  split at h
  · next hs => exact .inl ⟨hs, (instr_eq_ok.1 h).symm⟩
  · next hs =>
    simp only [bind_eq_ok, scalarWidth_eq_ok, instr_eq_ok] at h
    obtain ⟨w, _, ⟨hw, rfl⟩, rfl⟩ := h
    exact .inr ⟨w, hs, hw, rfl⟩

theorem load_ok {r : Register} {source target : Ty} {m : Address} {u : Unit}
    (h : load r source target m a = .ok u b) :
    (∃ w w', source.size < target.size ∧ target.size = w.bytes ∧ source.size = w'.bytes ∧
      b = a.extend [.combine .xor (.reg r w) (.reg r w), .mov (.reg r w') (.mem none m)]) ∨
    ∃ w, target.size ≤ source.size ∧ target.size = w.bytes ∧
      b = a.extend [.mov (.reg r w) (.mem none m)] := by
  unfold load at h
  split at h
  · next hs =>
    simp only [bind_eq_ok, scalarWidth_eq_ok, instr_eq_ok] at h
    obtain ⟨w, _, ⟨hw, rfl⟩, _, _, rfl, w', _, ⟨hw', rfl⟩, rfl⟩ := h
    exact .inl ⟨w, w', hs, hw, hw', by rw [Assembly.extend_extend]; rfl⟩
  · next hs =>
    simp only [bind_eq_ok, scalarWidth_eq_ok, instr_eq_ok] at h
    obtain ⟨w, _, ⟨hw, rfl⟩, rfl⟩ := h
    exact .inr ⟨w, Nat.le_of_not_lt hs, hw, rfl⟩

theorem resize_ok {t : Ty} {v u : Value} (h : resize t v a = .ok u b) :
    (∃ source r, v = .reg source r ∧ u = .reg t r ∧
      ((source.size < t.size ∧ zeroExtend r source t a = .ok () b) ∨
        (t.size ≤ source.size ∧ b = a))) ∨
    ∃ source m hs r c, v = .mem source m hs ∧ u = .reg t r ∧ a.firstFree? = some r ∧
      load r source t m (a.occupy r) = .ok () c ∧ b = c.release hs := by
  unfold resize at h
  cases v with
  | const s n => exact (throw_eq_ok.1 h).elim
  | reg s r =>
      simp only at h
      split at h
      · next hs =>
        simp only [bind_eq_ok, pure_eq_ok] at h
        obtain ⟨_, c, hz, rfl, rfl⟩ := h
        exact .inl ⟨s, r, rfl, rfl, .inl ⟨hs, hz⟩⟩
      · next hs =>
        simp only [pure_eq_ok] at h
        obtain ⟨rfl, rfl⟩ := h
        exact .inl ⟨s, r, rfl, rfl, .inr ⟨Nat.le_of_not_lt hs, rfl⟩⟩
  | mem s m hs =>
      simp only [bind_eq_ok, acquire_eq_ok, release_eq_ok, pure_eq_ok] at h
      obtain ⟨r, _, ⟨hr, rfl⟩, _, c, hload, _, _, rfl, rfl, rfl⟩ := h
      exact .inr ⟨s, m, hs, r, c, rfl, rfl, hr, hload, rfl⟩

theorem convert_ok {v u : Value} {t : Ty} (h : convert v t a = .ok u b) :
    (v.type.size = t.size ∧ u = v.withType t ∧ b = a) ∨
      (v.type.size ≠ t.size ∧ resize t v a = .ok u b) := by
  unfold convert at h
  split at h
  · next hs =>
    obtain ⟨rfl, rfl⟩ := pure_eq_ok.1 h
    exact .inl ⟨hs, rfl, rfl⟩
  · next hs => exact .inr ⟨hs, h⟩

theorem widen_ok {v u : Value} {t : Ty} (h : widen v t a = .ok u b) :
    (v.isConst = true ∧ u = v.withType t ∧ b = a) ∨
      (v.isConst = false ∧ convert v t a = .ok u b) := by
  unfold widen at h
  split at h
  · next hv =>
    obtain ⟨rfl, rfl⟩ := pure_eq_ok.1 h
    exact .inl ⟨hv, rfl, rfl⟩
  · next hv => exact .inr ⟨by simpa using hv, h⟩

theorem balance_ok {lhs rhs l r : Value} (h : balance lhs rhs a = .ok (l, r) b) :
    (rhs.type.size < lhs.type.size ∧ l = lhs ∧ widen rhs lhs.type a = .ok r b) ∨
    (lhs.type.size < rhs.type.size ∧ r = rhs ∧ widen lhs rhs.type a = .ok l b) ∨
    (lhs.type.size = rhs.type.size ∧ l = lhs ∧ r = rhs ∧ b = a) := by
  unfold balance at h
  split at h
  · next hs =>
    simp only [bind_eq_ok, pure_eq_ok, Prod.mk.injEq] at h
    obtain ⟨_, _, hw, ⟨rfl, rfl⟩, rfl⟩ := h
    exact .inl ⟨hs, rfl, hw⟩
  · next hs =>
    split at h
    · next hs' =>
      simp only [bind_eq_ok, pure_eq_ok, Prod.mk.injEq] at h
      obtain ⟨_, _, hw, ⟨rfl, rfl⟩, rfl⟩ := h
      exact .inr (.inl ⟨hs', rfl, hw⟩)
    · next hs' =>
      simp only [pure_eq_ok, Prod.mk.injEq] at h
      obtain ⟨⟨rfl, rfl⟩, rfl⟩ := h
      exact .inr (.inr ⟨by omega, rfl, rfl, rfl⟩)

theorem toRegister_ok {v : Value} {w : Width} {r : Register}
    (h : toRegister v w a = .ok r b) :
    (∃ t, v = .reg t r ∧ b = a) ∨
      ∃ o, v.Spelt o ∧ a.firstFree? = some r ∧
        b = ((a.occupy r).extend [.mov (.reg r w) o]).release v.held := by
  unfold toRegister at h
  cases v with
  | reg t q =>
      obtain ⟨rfl, rfl⟩ := pure_eq_ok.1 h
      exact .inl ⟨t, rfl, rfl⟩
  | const t n | mem t m hs =>
      simp only [bind_eq_ok, acquire_eq_ok, operand_eq_ok, instr_eq_ok, discard_eq_ok,
        pure_eq_ok] at h
      obtain ⟨_, _, ⟨hr, rfl⟩, o, _, ⟨ho, rfl⟩, _, _, rfl, _, _, rfl, rfl, rfl⟩ := h
      exact .inr ⟨o, ho, hr, rfl⟩

theorem additive_ok {op : Combine} {w : Width} {lhs rhs v : Value}
    (h : additive op w lhs rhs a = .ok v b) :
    ∃ dst c o, toRegister lhs w a = .ok dst c ∧ v = .reg lhs.type dst ∧ rhs.Spelt o ∧
      ((∃ tmp, needsRegister rhs w = true ∧ c.firstFree? = some tmp ∧
        b = (((c.occupy tmp).extend
          [.mov (.reg tmp .qword) o, .combine op (.reg dst w) (.reg tmp .qword)]).release
            [tmp]).release rhs.held) ∨
      (needsRegister rhs w = false ∧
        b = (c.extend [.combine op (.reg dst w) o]).release rhs.held)) := by
  unfold additive at h
  rw [bind_eq_ok] at h
  obtain ⟨dst, c, hdst, h⟩ := h
  cases hn : needsRegister rhs w with
  | true =>
      simp only [hn, if_true, bind_eq_ok, withScratch_eq_ok, operand_eq_ok, instr_eq_ok,
        discard_eq_ok, pure_eq_ok] at h
      obtain ⟨_, _, ⟨tmp, _, htmp, ⟨o, _, ⟨ho, rfl⟩, _, _, rfl, rfl⟩, rfl⟩, _, _, rfl, rfl,
        rfl⟩ := h
      exact ⟨dst, c, o, hdst, rfl, ho,
        .inl ⟨tmp, rfl, htmp, by rw [Assembly.extend_extend]; rfl⟩⟩
  | false =>
      simp only [hn, Bool.false_eq_true, if_false, bind_eq_ok, operand_eq_ok, instr_eq_ok,
        discard_eq_ok, pure_eq_ok] at h
      obtain ⟨o, _, ⟨ho, rfl⟩, _, _, rfl, _, _, rfl, rfl, rfl⟩ := h
      exact ⟨dst, c, o, hdst, rfl, ho, .inr ⟨rfl, rfl⟩⟩

theorem vacateCount_ok {r q : Register} (h : vacateCount r a = .ok q b) :
    (r ≠ .rcx ∧ q = r ∧ b = a) ∨
      (r = .rcx ∧ a.firstFree? = some q ∧
        b = ((a.occupy q).extend [.mov (.reg q .qword) (.reg .rcx .qword)]).release [.rcx]) := by
  unfold vacateCount at h
  split at h
  · next hr =>
    simp only [bind_eq_ok, acquire_eq_ok, instr_eq_ok, release_eq_ok, pure_eq_ok] at h
    obtain ⟨_, _, ⟨hq, rfl⟩, _, _, rfl, _, _, rfl, rfl, rfl⟩ := h
    exact .inr ⟨hr, hq, rfl⟩
  · next hr =>
    obtain ⟨rfl, rfl⟩ := pure_eq_ok.1 h
    exact .inl ⟨hr, rfl, rfl⟩

theorem countOperand_eq_ok {v : Value} {o : Operand} :
    countOperand v a = .ok o b ↔ v.SpeltCount o ∧ a = b := by
  unfold countOperand Value.SpeltCount
  cases v with
  | reg t r =>
      simp only [pure_eq_ok]
      rw [eq_comm]
  | const t n | mem t m hs => exact operand_eq_ok

theorem shiftByCount_ok {dir : Direction} {w : Width} {dst r : Register} {rhs : Value}
    (h : shiftByCount dir w dst rhs a = .ok r b) :
    ∃ c o, vacateCount dst a = .ok r c ∧ rhs.SpeltCount o ∧
      b = (((((c.extend ((saved [.rcx] c).map .push)).occupyAll (blocked [.rcx] c)).extend
        [.mov (.reg .rcx .byte) o, .shift dir (.reg r w) (.reg .rcx .byte)]).release
          (blocked [.rcx] c)).extend ((saved [.rcx] c).reverse.map .pop)).release rhs.held := by
  unfold shiftByCount at h
  simp only [bind_eq_ok, countOperand_eq_ok, reserving_eq_ok, instr_eq_ok, discard_eq_ok,
    pure_eq_ok] at h
  obtain ⟨_, c, hdst, o, _, ⟨ho, rfl⟩, _, _, ⟨_, ⟨_, _, rfl, rfl⟩, rfl⟩, _, _, rfl, rfl,
    rfl⟩ := h
  exact ⟨c, o, hdst, ho, by rw [Assembly.extend_extend]; rfl⟩

theorem shift_ok {dir : Direction} {w : Width} {lhs rhs v : Value}
    (h : shift dir w lhs rhs a = .ok v b) :
    ∃ dst c, toRegister lhs w a = .ok dst c ∧
      ((∃ t n, rhs = .const t n ∧ v = .reg lhs.type dst ∧
        b = c.extend [.shift dir (.reg dst w) (.imm (Word.unsigned 1 n))]) ∨
      (rhs.isConst = false ∧ ∃ r, v = .reg lhs.type r ∧
        shiftByCount dir w dst rhs c = .ok r b)) := by
  unfold shift at h
  rw [bind_eq_ok] at h
  obtain ⟨dst, c, hdst, h⟩ := h
  refine ⟨dst, c, hdst, ?_⟩
  cases rhs with
  | const t n =>
      simp only [bind_eq_ok, instr_eq_ok, pure_eq_ok] at h
      obtain ⟨_, _, rfl, rfl, rfl⟩ := h
      exact .inl ⟨t, n, rfl, rfl, rfl⟩
  | reg t q | mem t m hs =>
      simp only [bind_eq_ok, pure_eq_ok] at h
      obtain ⟨r, _, hr, rfl, rfl⟩ := h
      exact .inr ⟨rfl, r, rfl, hr⟩

theorem fillAccumulator_ok {v : Value} {w : Width} {u : Unit}
    (h : fillAccumulator v w a = .ok u b) :
    (∃ t n, v = .const t n ∧
      b = a.extend [.mov (.reg .rax (if w = .qword then .qword else .dword))
        (.imm (Word.unsigned w.bytes n))]) ∨
    (v.isConst = false ∧ w.bytes < 4 ∧ ∃ o, v.SpeltSized w o ∧
      b = a.extend [.movzx (.reg .rax .dword) o]) ∨
    (v.isConst = false ∧ 4 ≤ w.bytes ∧ ∃ o, v.Spelt o ∧
      b = a.extend [.mov (.reg .rax w) o]) := by
  unfold fillAccumulator at h
  cases v with
  | const t n => exact .inl ⟨t, n, rfl, (instr_eq_ok.1 h).symm⟩
  | reg t r | mem t m hs =>
      simp only at h
      split at h
      · next hw =>
        simp only [bind_eq_ok, sizedOperand_eq_ok, instr_eq_ok] at h
        obtain ⟨o, _, ⟨ho, rfl⟩, rfl⟩ := h
        exact .inr (.inl ⟨rfl, hw, o, ho, rfl⟩)
      · next hw =>
        simp only [bind_eq_ok, operand_eq_ok, instr_eq_ok] at h
        obtain ⟨o, _, ⟨ho, rfl⟩, rfl⟩ := h
        exact .inr (.inr ⟨rfl, Nat.le_of_not_lt hw, o, ho, rfl⟩)

theorem stage_ok {v f : Value} {w : Width} {staged : List Register}
    (h : stage v w a = .ok (f, staged) b) :
    ((v.isConst = true ∨ .rdx ∈ v.held) ∧ ∃ tmp o, a.firstFree? = some tmp ∧ v.Spelt o ∧
      f = .reg v.type tmp ∧ staged = [tmp] ∧
      b = (a.occupy tmp).extend [.mov (.reg tmp w) o]) ∨
    (v.isConst = false ∧ .rdx ∉ v.held ∧ f = v ∧ staged = [] ∧ b = a) := by
  unfold stage at h
  split at h
  · next hv =>
    simp only [bind_eq_ok, acquire_eq_ok, operand_eq_ok, instr_eq_ok, pure_eq_ok,
      Prod.mk.injEq] at h
    obtain ⟨tmp, _, ⟨htmp, rfl⟩, o, _, ⟨ho, rfl⟩, _, _, rfl, ⟨rfl, rfl⟩, rfl⟩ := h
    exact .inl ⟨by simpa using hv, tmp, o, htmp, ho, rfl, rfl, rfl⟩
  · next hv =>
    simp only [pure_eq_ok, Prod.mk.injEq] at h
    obtain ⟨⟨rfl, rfl⟩, rfl⟩ := h
    have hv' : v.isConst = false ∧ .rdx ∉ v.held := by simpa using hv
    exact .inr ⟨hv'.1, hv'.2, rfl, rfl, rfl⟩

/-- The instructions that divide the accumulator by an operand. -/
def divideCode (w : Width) (o : Operand) : List Instr :=
  if w = .byte then [.div o]
  else [.combine .xor (.reg .rdx .dword) (.reg .rdx .dword), .div o]

theorem divide_ok {w : Width} {v : Value} {u : Unit} (h : divide w v a = .ok u b) :
    ∃ o, v.SpeltSized w o ∧ b = a.extend (divideCode w o) := by
  unfold divide at h
  by_cases hw : w = .byte
  · simp only [hw, ne_eq, not_true, if_false, bind_eq_ok, sizedOperand_eq_ok,
      instr_eq_ok] at h
    obtain ⟨o, _, ⟨ho, rfl⟩, rfl⟩ := h
    exact ⟨o, hw ▸ ho, by rw [divideCode, if_pos hw]⟩
  · simp only [hw, ne_eq, not_false_eq_true, if_true, bind_eq_ok, sizedOperand_eq_ok,
      instr_eq_ok] at h
    obtain ⟨_, _, rfl, o, _, ⟨ho, rfl⟩, rfl⟩ := h
    exact ⟨o, ho, by rw [divideCode, if_neg hw, Assembly.extend_extend]; rfl⟩

/-- The instruction that moves the remainder of a division into the accumulator. -/
def remainderCode (w : Width) : Instr :=
  if w = .byte then .mov (.reg .rax .byte) .ah else .mov (.reg .rax w) (.reg .rdx w)

theorem takeRemainder_ok {w : Width} {u : Unit} (h : takeRemainder w a = .ok u b) :
    b = a.extend [remainderCode w] := by
  unfold takeRemainder at h
  unfold remainderCode
  split at h
  · next hw => rw [if_pos hw, instr_eq_ok.1 h]
  · next hw => rw [if_neg hw, instr_eq_ok.1 h]

/-- The instructions that combine the accumulator with an operand. -/
def accumulateCode (op : WideOp) (w : Width) (o : Operand) : List Instr :=
  match op with
  | .product => [.mul o]
  | .quotient => divideCode w o
  | .remainder => divideCode w o ++ [remainderCode w]

theorem accumulate_ok {op : WideOp} {w : Width} {v : Value} {u : Unit}
    (h : accumulate op w v a = .ok u b) :
    ∃ o, v.SpeltSized w o ∧ b = a.extend (accumulateCode op w o) := by
  unfold accumulate at h
  cases op with
  | product =>
      simp only [bind_eq_ok, sizedOperand_eq_ok, instr_eq_ok] at h
      obtain ⟨o, _, ⟨ho, rfl⟩, rfl⟩ := h
      exact ⟨o, ho, rfl⟩
  | quotient => exact divide_ok h
  | remainder =>
      simp only [bind_eq_ok] at h
      obtain ⟨_, c, hdiv, hrem⟩ := h
      obtain ⟨o, ho, rfl⟩ := divide_ok hdiv
      refine ⟨o, ho, ?_⟩
      rw [takeRemainder_ok hrem, Assembly.extend_extend]
      rfl

theorem wide_ok {op : WideOp} {w : Width} {lhs rhs v : Value}
    (h : wide op w lhs rhs a = .ok v b) :
    ∃ f staged c d o dst e,
      stage rhs w ((a.extend ((saved [.rax, .rdx] a).map .push)).occupyAll
        (blocked [.rax, .rdx] a)) = .ok (f, staged) c ∧
      fillAccumulator lhs w c = .ok () d ∧ f.SpeltSized w o ∧
      e = (((((d.extend (accumulateCode op w o)).release (blocked [.rax, .rdx] a)).extend
        ((saved [.rax, .rdx] a).reverse.map .pop)).release lhs.held).release rhs.held).release
          staged ∧
      e.firstFree? = some dst ∧ v = .reg lhs.type dst ∧
      b = (e.occupy dst).extend [.mov (.reg dst w) (.reg .rax w)] := by
  unfold wide at h
  simp only [bind_eq_ok, reserving_eq_ok, discard_eq_ok, release_eq_ok, acquire_eq_ok,
    instr_eq_ok, pure_eq_ok, Prod.exists] at h
  obtain ⟨staged, _, ⟨_, ⟨f, _, c, hstage, _, d, hfill, _, _, hacc, rfl, rfl⟩, rfl⟩, _, _, rfl,
    _, _, rfl, _, _, rfl, dst, _, ⟨hdst, rfl⟩, _, _, rfl, rfl, rfl⟩ := h
  obtain ⟨o, ho, rfl⟩ := accumulate_ok hacc
  exact ⟨f, _, c, d, o, dst, _, hstage, hfill, ho, rfl, hdst, rfl, rfl⟩

theorem operation_ok {op : BinaryOp} {lhs rhs v : Value}
    (h : operation op lhs rhs a = .ok v b) :
    ∃ w, lhs.type.size = w.bytes ∧ rhs.type.size = w.bytes ∧
      match op with
      | .add => additive .add w lhs rhs a = .ok v b
      | .sub => additive .sub w lhs rhs a = .ok v b
      | .shl => shift .left w lhs rhs a = .ok v b
      | .shr => shift .right w lhs rhs a = .ok v b
      | .mul => wide .product w lhs rhs a = .ok v b
      | .div => wide .quotient w lhs rhs a = .ok v b
      | .mod => wide .remainder w lhs rhs a = .ok v b := by
  unfold operation at h
  simp only [bind_eq_ok, scalarWidth_eq_ok] at h
  obtain ⟨w, _, ⟨hw, rfl⟩, h⟩ := h
  split at h
  · exact (throw_eq_ok.1 h).elim
  · next hsize =>
    refine ⟨w, hw, by omega, ?_⟩
    cases op <;> exact h

end Tern.Emit
