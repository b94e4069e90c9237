import Tern.Proofs.Emit.Arithmetic

/-!
# What access to memory writes

For addresses, elements, assignments and calls: the registers taken, the instructions written
and the assembly left, whenever the operation succeeded.
-/

namespace Tern.Emit

variable {a b : Assembly}

theorem variableValue_ok {x : Variable} {v : Value} (h : variableValue x a = .ok v b) :
    b = a ∧ ((∃ label n, x.storage = some (.global label n) ∧
        v = .mem x.type { base := .label label } []) ∨
      ∃ offset n, x.storage = some (.frame offset n) ∧
        v = .mem x.type { base := .reg .rbp, offset := .disp (-offset) } []) := by
  unfold variableValue at h
  cases hs : x.storage with
  | none =>
      rw [hs] at h
      exact (throw_eq_ok.1 h).elim
  | some place =>
      rw [hs] at h
      cases place with
      | global label n =>
          obtain ⟨rfl, rfl⟩ := pure_eq_ok.1 h
          exact ⟨rfl, .inl ⟨label, n, rfl, rfl⟩⟩
      | frame offset n =>
          obtain ⟨rfl, rfl⟩ := pure_eq_ok.1 h
          exact ⟨rfl, .inr ⟨offset, n, rfl, rfl⟩⟩

theorem reference_ok {i : Item} {v : Value} (h : reference i a = .ok v b) :
    ∃ t m hs r, i = .value (.mem t m hs) ∧ a.firstFree? = some r ∧ v = .reg (.pointer t) r ∧
      b = ((a.occupy r).extend [.lea r m]).release hs := by
  unfold reference at h
  split at h
  · next t m hs =>
    simp only [bind_eq_ok, acquire_eq_ok, instr_eq_ok, release_eq_ok, pure_eq_ok] at h
    obtain ⟨r, _, ⟨hr, rfl⟩, _, _, rfl, _, _, rfl, rfl, rfl⟩ := h
    exact ⟨t, m, hs, r, rfl, hr, rfl, rfl⟩
  · exact (throw_eq_ok.1 h).elim

theorem elementBase_ok {v : Value} {r : Register} (h : elementBase v a = .ok r b) :
    (∃ t, v = .reg t r ∧ b = a) ∨
      ∃ t m hs, v = .mem t m hs ∧ a.firstFree? = some r ∧
        b = ((a.occupy r).extend
          [if t.isArray then .lea r m else .mov (.reg r .qword) (.mem none m)]).release hs := by
  unfold elementBase at h
  cases v with
  | const t n => exact (throw_eq_ok.1 h).elim
  | reg t q =>
      obtain ⟨rfl, rfl⟩ := pure_eq_ok.1 h
      exact .inl ⟨t, rfl, rfl⟩
  | mem t m hs =>
      simp only [bind_eq_ok, acquire_eq_ok] at h
      obtain ⟨q, _, ⟨hq, rfl⟩, h⟩ := h
      cases ht : t.isArray with
      | true =>
          simp only [ht, if_true, bind_eq_ok, instr_eq_ok, release_eq_ok, pure_eq_ok] at h
          obtain ⟨_, _, rfl, _, _, rfl, rfl, rfl⟩ := h
          exact .inr ⟨t, m, hs, rfl, hq, by rw [ht, if_pos rfl]⟩
      | false =>
          simp only [ht, Bool.false_eq_true, if_false, bind_eq_ok, instr_eq_ok, release_eq_ok,
            pure_eq_ok] at h
          obtain ⟨_, _, rfl, _, _, rfl, rfl, rfl⟩ := h
          exact .inr ⟨t, m, hs, rfl, hq, by rw [ht, if_neg Bool.false_ne_true]⟩

/-- The instruction that moves an operand of width `w` into a register and clears the rest of
it. -/
def extendedMove (r : Register) (w : Width) (o : Operand) : Instr :=
  if w.bytes < 4 then .movzx (.reg r .qword) o else .mov (.reg r w) o

theorem moveExtended_ok {r : Register} {w : Width} {o : Operand} {u : Unit}
    (h : moveExtended r w o a = .ok u b) : b = a.extend [extendedMove r w o] := by
  unfold moveExtended at h
  unfold extendedMove
  split at h
  · next hw => rw [if_pos hw, instr_eq_ok.1 h]
  · next hw => rw [if_neg hw, instr_eq_ok.1 h]

theorem extendIndex_ok {i : Value} {r : Register} (h : extendIndex i a = .ok r b) :
    ∃ w, i.type.size = w.bytes ∧
      ((∃ t, i = .reg t r ∧
        b = a.extend (if w = .qword then [] else [extendedMove r w (.reg r w)])) ∨
      ((∀ t q, i ≠ .reg t q) ∧ ∃ o, i.SpeltSized w o ∧ a.firstFree? = some r ∧
        b = ((a.occupy r).extend [extendedMove r w o]).release i.held)) := by
  unfold extendIndex at h
  simp only [bind_eq_ok, scalarWidth_eq_ok] at h
  obtain ⟨w, _, ⟨hw, rfl⟩, h⟩ := h
  refine ⟨w, hw, ?_⟩
  cases i with
  | reg t q =>
      simp only at h
      by_cases hq : w = .qword
      · simp only [hq, ne_eq, not_true, if_false, pure_eq_ok] at h
        obtain ⟨rfl, rfl⟩ := h
        exact .inl ⟨t, rfl, by rw [if_pos hq, Assembly.extend_nil]⟩
      · simp only [hq, ne_eq, not_false_eq_true, if_true, bind_eq_ok, pure_eq_ok] at h
        obtain ⟨_, _, hmove, rfl, rfl⟩ := h
        exact .inl ⟨t, rfl, by rw [if_neg hq, moveExtended_ok hmove]⟩
  | const t n | mem t m hs =>
      simp only [bind_eq_ok, acquire_eq_ok, sizedOperand_eq_ok, discard_eq_ok, pure_eq_ok] at h
      obtain ⟨q, _, ⟨hq, rfl⟩, o, _, ⟨ho, rfl⟩, _, _, hmove, _, _, rfl, rfl, rfl⟩ := h
      refine .inr ⟨by simp, o, ho, hq, ?_⟩
      rw [moveExtended_ok hmove]

theorem scaledElement_ok {t : Ty} {base index : Register} {v : Value}
    (h : scaledElement t base index a = .ok v b) :
    (∃ w : Width, t.size = w.bytes ∧ b = a ∧
      v = .mem t { base := .reg index, scale := t.size, offset := .reg base } [index, base]) ∨
    ((∀ w : Width, t.size ≠ w.bytes) ∧ b = a.extend [.imul index t.size] ∧
      v = .mem t { base := .reg index, offset := .reg base } [index, base]) := by
  unfold scaledElement at h
  split at h
  · next hs =>
    obtain ⟨rfl, rfl⟩ := pure_eq_ok.1 h
    obtain ⟨w, hw⟩ := Option.isSome_iff_exists.1 hs
    exact .inl ⟨w, Width.ofBytes?_eq_some_iff.1 hw, rfl, rfl⟩
  · next hs =>
    simp only [bind_eq_ok, instr_eq_ok, pure_eq_ok] at h
    obtain ⟨_, _, rfl, rfl, rfl⟩ := h
    refine .inr ⟨fun w hw => ?_, rfl, rfl⟩
    rw [Width.ofBytes?_eq_some_iff.2 hw] at hs
    exact hs rfl

theorem constantElement_ok {t : Ty} {base : Register} {i : Int} {v : Value}
    (h : constantElement t base i a = .ok v b) :
    (i * t.size ≤ Word.maxDisplacement ∧ b = a ∧
      v = .mem t { base := .reg base, offset := .disp (i * t.size) } [base]) ∨
    (Word.maxDisplacement < i * t.size ∧ ∃ r, a.firstFree? = some r ∧
      scaledElement t base r
        ((a.occupy r).extend [.mov (.reg r .qword) (.imm (Word.signed 8 i))]) = .ok v b) := by
  unfold constantElement at h
  split at h
  · next hd =>
    obtain ⟨rfl, rfl⟩ := pure_eq_ok.1 h
    exact .inl ⟨hd, rfl, rfl⟩
  · next hd =>
    simp only [bind_eq_ok, acquire_eq_ok, instr_eq_ok] at h
    obtain ⟨r, _, ⟨hr, rfl⟩, _, _, rfl, h⟩ := h
    exact .inr ⟨Int.not_le.1 hd, r, hr, h⟩

theorem elementAt_ok {t : Ty} {base : Register} {i : Item} {v : Value}
    (h : elementAt t base i a = .ok v b) :
    (∃ s n, ∃ w : Width, i = .value (.const s n) ∧ s.size = w.bytes ∧
      constantElement t base (Word.unsigned w.bytes n) a = .ok v b) ∨
    ∃ x r c, i = .value x ∧ x.isConst = false ∧ extendIndex x a = .ok r c ∧
      scaledElement t base r c = .ok v b := by
  unfold elementAt at h
  cases i with
  | void => exact (throw_eq_ok.1 h).elim
  | value x =>
      cases x with
      | const s n =>
          simp only [bind_eq_ok, scalarWidth_eq_ok] at h
          obtain ⟨w, _, ⟨hw, rfl⟩, h⟩ := h
          exact .inl ⟨s, n, w, rfl, hw, h⟩
      | reg s q | mem s m hs =>
          simp only [bind_eq_ok] at h
          obtain ⟨r, c, hr, h⟩ := h
          exact .inr ⟨_, r, c, rfl, rfl, hr, h⟩

theorem element_ok {array index : Item} {v : Value} (h : element array index a = .ok v b) :
    ∃ x t base c, array = .value x ∧ x.isConst = false ∧ x.type.element? = some t ∧
      elementBase x a = .ok base c ∧ elementAt t base index c = .ok v b := by
  unfold element at h
  cases array with
  | void => exact (throw_eq_ok.1 h).elim
  | value x =>
      cases x with
      | const s n => exact (throw_eq_ok.1 h).elim
      | reg s q | mem s m hs =>
          simp only [Value.type] at h
          cases ht : s.element? with
          | none =>
              rw [ht] at h
              exact (throw_eq_ok.1 h).elim
          | some t =>
              rw [ht] at h
              simp only [bind_eq_ok] at h
              obtain ⟨base, c, hbase, h⟩ := h
              exact ⟨_, t, base, c, rfl, rfl, ht, hbase, h⟩

theorem store_ok {w : Width} {m : Address} {v : Value} {u : Unit}
    (h : store w m v a = .ok u b) :
    (∃ t m' hs tmp, v = .mem t m' hs ∧ a.firstFree? = some tmp ∧
      b = ((a.occupy tmp).extend
        [.mov (.reg tmp w) (.mem none m'), .mov (.mem none m) (.reg tmp w)]).release [tmp]) ∨
    (needsRegister v w = true ∧ ∃ o tmp, v.Spelt o ∧ a.firstFree? = some tmp ∧
      b = ((a.occupy tmp).extend
        [.mov (.reg tmp .qword) o, .mov (.mem none m) (.reg tmp .qword)]).release [tmp]) ∨
    ((∀ t m' hs, v ≠ .mem t m' hs) ∧ needsRegister v w = false ∧ ∃ o, v.Spelt o ∧
      b = a.extend [.mov (.mem (some w) m) o]) := by
  unfold store at h
  cases v with
  | mem t m' hs =>
      simp only [withScratch_eq_ok, bind_eq_ok, instr_eq_ok] at h
      obtain ⟨tmp, _, htmp, ⟨_, _, rfl, rfl⟩, rfl⟩ := h
      exact .inl ⟨t, m', hs, tmp, rfl, htmp, by rw [Assembly.extend_extend]; rfl⟩
  | const t n | reg t r =>
      simp only at h
      split at h
      · next hn =>
        simp only [withScratch_eq_ok, bind_eq_ok, operand_eq_ok, instr_eq_ok] at h
        obtain ⟨tmp, _, htmp, ⟨o, _, ⟨ho, rfl⟩, _, _, rfl, rfl⟩, rfl⟩ := h
        exact .inr (.inl ⟨hn, o, tmp, ho, htmp, by rw [Assembly.extend_extend]; rfl⟩)
      · next hn =>
        simp only [bind_eq_ok, operand_eq_ok, instr_eq_ok] at h
        obtain ⟨o, _, ⟨ho, rfl⟩, rfl⟩ := h
        exact .inr (.inr ⟨by simp, by simpa using hn, o, ho, rfl⟩)

theorem assignment_ok {target source : Item} {v : Value}
    (h : assignment target source a = .ok v b) :
    ∃ t m hs x w c, target = .value (.mem t m hs) ∧ source = .value x ∧ v = .mem t m hs ∧
      t.size = w.bytes ∧ store w m x a = .ok () c ∧ b = c.release x.held := by
  unfold assignment at h
  cases target with
  | void => exact (throw_eq_ok.1 h).elim
  | value y =>
      cases y with
      | const t n | reg t r => exact (throw_eq_ok.1 h).elim
      | mem t m hs =>
          cases source with
          | void => exact (throw_eq_ok.1 h).elim
          | value x =>
              simp only [bind_eq_ok, scalarWidth_eq_ok, discard_eq_ok, pure_eq_ok] at h
              obtain ⟨w, _, ⟨hw, rfl⟩, _, c, hstore, _, _, rfl, rfl, rfl⟩ := h
              exact ⟨t, m, hs, x, w, c, rfl, rfl, rfl, hw, hstore, rfl⟩

/-- The registers that writing a line feed needs to itself. -/
def newlineRegisters : List Register := [.rax, .rcx, .rdx, .rsi, .rdi, .r11]

/-- The instructions that write a line feed. -/
def newlineCode : List Instr :=
  [.mov (.reg .rax .qword) (.imm 1), .mov (.reg .rdi .qword) (.imm 1),
    .mov (.reg .rsi .qword) (.label newlineLabel), .mov (.reg .rdx .qword) (.imm 1), .syscall]

theorem writeNewline_ok {u : Unit} (h : writeNewline a = .ok u b) :
    b = ((((a.extend ((saved newlineRegisters a).map .push)).occupyAll
      (blocked newlineRegisters a)).extend newlineCode).release
        (blocked newlineRegisters a)).extend ((saved newlineRegisters a).reverse.map .pop) := by
  unfold writeNewline at h
  simp only [reserving_eq_ok, bind_eq_ok, instr_eq_ok] at h
  obtain ⟨_, ⟨_, _, rfl, _, _, rfl, _, _, rfl, _, _, rfl, rfl⟩, rfl⟩ := h
  simp only [Assembly.extend_extend]
  rfl

theorem digitValue_ok {i : Item} {t : Ty} {v : Value} (h : digitValue i t a = .ok v b) :
    ∃ x r o, i = .value x ∧ a.firstFree? = some r ∧ x.Spelt o ∧ v = .reg t r ∧
      b = (a.occupy r).extend
        [.mov (.reg r .byte) o, .combine .sub (.reg r .byte) (.imm 48)] := by
  unfold digitValue at h
  cases i with
  | void =>
      simp only [bind_eq_ok, itemOperand, throw_eq_ok, false_and, exists_false, and_false] at h
  | value x =>
      simp only [bind_eq_ok, acquire_eq_ok, itemOperand, operand_eq_ok, instr_eq_ok,
        pure_eq_ok] at h
      obtain ⟨r, _, ⟨hr, rfl⟩, o, _, ⟨ho, rfl⟩, _, _, rfl, _, _, rfl, rfl, rfl⟩ := h
      exact ⟨x, r, o, rfl, hr, ho, rfl, by rw [Assembly.extend_extend]; rfl⟩

theorem perform_ok {p : Procedure} {args : List Item} {i : Item}
    (h : perform p args a = .ok i b) :
    (p.routine = .writeEln ∧ i = .void ∧ writeNewline a = .ok () b) ∨
      ∃ arg rest t v, p.routine = .digitToInt ∧ args = arg :: rest ∧ p.returns = some t ∧
        i = .value v ∧ digitValue arg t a = .ok v b := by
  unfold perform at h
  cases hr : p.routine with
  | writeEln =>
      simp only [hr, bind_eq_ok, pure_eq_ok] at h
      obtain ⟨_, _, hw, rfl, rfl⟩ := h
      exact .inl ⟨rfl, rfl, hw⟩
  | other name =>
      simp only [hr, throw_eq_ok] at h
  | digitToInt =>
      cases args with
      | nil => simp only [hr, throw_eq_ok] at h
      | cons arg rest =>
          cases ht : p.returns with
          | none => simp only [hr, ht, throw_eq_ok] at h
          | some t =>
              simp only [hr, ht, bind_eq_ok, pure_eq_ok] at h
              obtain ⟨v, _, hv, rfl, rfl⟩ := h
              exact .inr ⟨arg, rest, t, v, rfl, rfl, rfl, rfl, hv⟩

theorem forM_discardItem (args : List Item) :
    args.forM discardItem a = .ok () (a.release (args.flatMap Item.held)) := by
  induction args generalizing a with
  | nil => simp [List.forM, pure, EStateM.pure]
  | cons arg args ih =>
      change (discardItem arg >>= fun _ => args.forM discardItem) a = _
      rw [bind_eq_ok]
      refine ⟨(), a.release arg.held, release_eq_ok.2 rfl, ?_⟩
      rw [ih, Assembly.release_release, List.flatMap_cons]

theorem call_ok {p : Procedure} {args : List Item} {i : Item} (h : call p args a = .ok i b) :
    ∃ c, perform p args a = .ok i c ∧ b = c.release (args.flatMap Item.held) := by
  unfold call at h
  simp only [tryFinally, tryFinally', Functor.map, EStateM.map] at h
  cases hp : perform p args a with
  | error e c =>
      simp only [hp] at h
      rw [forM_discardItem] at h
      cases h
  | ok j c =>
      simp only [hp] at h
      rw [forM_discardItem] at h
      cases h
      exact ⟨c, rfl, rfl⟩

end Tern.Emit
