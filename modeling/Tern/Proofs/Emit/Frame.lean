import Tern.Proofs.Machine.Frame

/-!
# The frame is set up and taken down once

No operation writes an instruction that changes, saves or restores one of the two registers that
describe the stack.  Whatever does belongs to the code around the statements of a program.
-/

namespace Tern

/-- One of the two registers that describe the stack. -/
def Register.OfFrame (r : Register) : Prop := r = .rsp ∨ r = .rbp

instance : DecidablePred Register.OfFrame := fun r => inferInstanceAs (Decidable (r = _ ∨ r = _))

/-- The instruction neither changes nor saves nor restores a register that describes the stack. -/
structure Instr.KeepsFrame (i : Instr) : Prop where
  written : ∀ r ∈ i.writes, ¬ r.OfFrame
  saved : ∀ r, i = .push r ∨ i = .pop r → ¬ r.OfFrame

namespace Assembly.Writes

variable {P Q : Instr → Prop} {a b : Assembly}

theorem imp (h : a.Writes P b) (hPQ : ∀ i, P i → Q i) : a.Writes Q b := by
  obtain ⟨code, hlines, hcode⟩ := h
  exact ⟨code, hlines, fun i hi => hPQ i (hcode i hi)⟩

theorem and (h : a.Writes P b) (h' : a.Writes Q b) : a.Writes (fun i => P i ∧ Q i) b := by
  obtain ⟨code, hlines, hcode⟩ := h
  obtain ⟨code', hlines', hcode'⟩ := h'
  have hsame : code.map Line.instr = code'.map Line.instr := by
    have hlists : a.lines.toList ++ code.map Line.instr =
        a.lines.toList ++ code'.map Line.instr := by
      simpa using congrArg Array.toList (hlines.symm.trans hlines')
    exact List.append_cancel_left hlists
  obtain rfl : code = code' := List.map_injective_iff.2 (fun _ _ h => Line.instr.inj h) hsame
  exact ⟨code, hlines, fun i hi => ⟨hcode i hi, hcode' i hi⟩⟩

end Assembly.Writes

namespace Instr.KeepsFrame

variable {i : Instr} {rs : List Register}

theorem ofSpares (h : i.Spares Register.OfFrame) : i.KeepsFrame := by
  refine ⟨h.2, fun r hr => ?_⟩
  have hquiet := h.1
  rcases hr with rfl | rfl <;> cases hquiet

theorem ofConfined (h : Emit.Confined rs i) (hrs : ∀ r ∈ rs, ¬ r.OfFrame) : i.KeepsFrame :=
  .ofSpares ⟨h.1, fun r hr => hrs r (h.2 r hr)⟩

theorem store {size : Option Width} {m : Address} {o : Operand} :
    (Instr.mov (.mem size m) o).KeepsFrame := ⟨by simp [writes], nofun⟩

theorem syscall : Instr.syscall.KeepsFrame := ⟨by simp [writes], nofun⟩

end Instr.KeepsFrame

theorem Register.not_ofFrame_of_mem_pool {r : Register} (h : r ∈ Register.pool) : ¬ r.OfFrame := by
  revert h
  cases r <;> decide

theorem Assembly.guards_ofFrame (a : Assembly) : a.Guards Register.OfFrame := fun _ h => .inr h

namespace Emit

open Assembly Instr

variable {a b : Assembly} {v : Value} {w : Width} {rs : List Register}

theorem keepsFrame_of_spares (h : a.Writes (Instr.Spares Register.OfFrame) b) :
    a.Writes KeepsFrame b := h.imp fun _ => .ofSpares

theorem push_keepsFrame (hrs : ∀ r ∈ rs, ¬ r.OfFrame) : ∀ i ∈ rs.map Instr.push, i.KeepsFrame := by
  refine List.forall_mem_map.2 fun r hr => ⟨by simp [writes], fun q hq => ?_⟩
  rcases hq with hq | hq <;> cases hq
  exact hrs r hr

theorem pop_keepsFrame (hrs : ∀ r ∈ rs, ¬ r.OfFrame) : ∀ i ∈ rs.map Instr.pop, i.KeepsFrame := by
  refine List.forall_mem_map.2 fun r hr => ⟨by simp [writes], fun q hq => ?_⟩
  rcases hq with hq | hq <;> cases hq
  exact hrs r hr

theorem saved_not_ofFrame (hrs : ∀ r ∈ rs, ¬ r.OfFrame) : ∀ r ∈ saved rs a, ¬ r.OfFrame :=
  fun r hr => hrs r (mem_saved.1 hr).1

theorem shift_keepsFrame {dir : Direction} {lhs rhs : Value} (h : shift dir w lhs rhs a = .ok v b)
    (hl : ∀ r ∈ lhs.held, ¬ r.OfFrame) : a.Writes KeepsFrame b := by
  obtain ⟨dst, c, hdst, hcases⟩ := shift_ok h
  obtain ⟨hwrites, hguards, hkeep⟩ := toRegister_spares hdst a.guards_ofFrame hl
  obtain ⟨t, n, -, -, rfl⟩ | ⟨-, r, -, h⟩ := hcases
  · exact keepsFrame_of_spares
      (hwrites.extend (List.forall_mem_singleton.2 (spares_write rfl rfl hkeep)))
  · obtain ⟨d, o, hmoved, -, rfl⟩ := shiftByCount_ok h
    obtain ⟨hwrites', -, hkeep⟩ := vacateCount_spares hmoved hguards hkeep
    have hcount : ∀ i ∈ [Instr.mov (.reg .rcx .byte) o, .shift dir (.reg r w) (.reg .rcx .byte)],
        i.KeepsFrame :=
      forall_pair (.ofSpares (spares_write rfl rfl (by decide)))
        (.ofSpares (spares_write rfl rfl hkeep))
    have hsaved : ∀ r ∈ saved [.rcx] d, ¬ r.OfFrame := saved_not_ofFrame (by decide)
    have hpop : ∀ i ∈ (saved [.rcx] d).reverse.map Instr.pop, i.KeepsFrame :=
      pop_keepsFrame (by simpa using hsaved)
    exact ((((keepsFrame_of_spares (hwrites.trans hwrites')).extend
      (push_keepsFrame hsaved)).occupyAll.extend hcount).release.extend hpop).release

theorem wide_keepsFrame {op : WideOp} {lhs rhs : Value} (h : wide op w lhs rhs a = .ok v b) :
    a.Writes KeepsFrame b := by
  obtain ⟨f, staged, c, d, o, dst, e, hstage, hfill, -, rfl, hdst, -, rfl⟩ := wide_ok h
  have hrs : ∀ r ∈ [Register.rax, .rdx], ¬ r.OfFrame := by decide
  have hsaved : ∀ r ∈ saved [.rax, .rdx] a, ¬ r.OfFrame := saved_not_ofFrame hrs
  obtain ⟨hwrites, hguards, hstaged⟩ := stage_confined hstage (guards_ofFrame _)
  obtain ⟨hwrites', -⟩ := fillAccumulator_confined hfill hguards
  have hscratch : ∀ r ∈ [Register.rax, .rdx] ++ staged, ¬ r.OfFrame :=
    List.forall_mem_append.2 ⟨hrs, hstaged⟩
  have hinner := ((hwrites.trans hwrites').extend (accumulateCode_confined op w o staged)).imp
    fun _ hi => KeepsFrame.ofConfined hi hscratch
  have hresult : ∀ i ∈ [Instr.mov (.reg dst w) (.reg .rax w)], i.KeepsFrame :=
    List.forall_mem_singleton.2 (.ofSpares (spares_write rfl rfl
      (guards_ofFrame _ |>.free hdst)))
  have hpop : ∀ i ∈ (saved [.rax, .rdx] a).reverse.map Instr.pop, i.KeepsFrame :=
    pop_keepsFrame (by simpa using hsaved)
  have hpush := (Writes.refl (a := a)).extend (push_keepsFrame hsaved)
  exact ((hpush.occupyAll.trans hinner).release.extend hpop).release.release.release.occupy
    |>.extend hresult

theorem operation_keepsFrame {op : BinaryOp} {lhs rhs : Value}
    (h : operation op lhs rhs a = .ok v b) (hl : ∀ r ∈ lhs.held, ¬ r.OfFrame) :
    a.Writes KeepsFrame b := by
  obtain ⟨w, -, -, h⟩ := operation_ok h
  cases op with
  | add | sub => exact keepsFrame_of_spares (additive_spares h a.guards_ofFrame hl)
  | shl | shr => exact shift_keepsFrame h hl
  | mul | div | mod => exact wide_keepsFrame h

theorem operate_keepsFrame {op : BinaryOp} {lhs rhs : Value}
    (h : Compile.operate op lhs rhs a = .ok v b) (hown : a.Owns (lhs.held ++ rhs.held))
    (hpool : ∀ r ∈ lhs.held ++ rhs.held, r ∈ Register.pool) : a.Writes KeepsFrame b := by
  have hkeep (r : Register) (hr : r ∈ lhs.held ++ rhs.held) : ¬ r.OfFrame :=
    Register.not_ofFrame_of_mem_pool (hpool r hr)
  obtain ⟨hl, hr⟩ := List.forall_mem_append.1 hkeep
  unfold Compile.operate at h
  split at h
  · exact operation_keepsFrame h hl
  · simp only [bind_eq_ok, Prod.exists] at h
    obtain ⟨l, r, c, hbalance, h⟩ := h
    have hleft : ∀ q ∈ l.held, ¬ q.OfFrame := by
      intro q hq
      rcases (balance_transfer hbalance hown).pool q (List.mem_append_left _ hq) with hq | hq
      · exact Register.not_ofFrame_of_mem_pool hq
      · exact hkeep q hq
    exact (keepsFrame_of_spares (balance_spares hbalance a.guards_ofFrame hl hr)).trans
      (operation_keepsFrame h hleft)

theorem assignment_keepsFrame {target source : Item} (h : assignment target source a = .ok v b) :
    a.Writes KeepsFrame b := by
  obtain ⟨t, m, hs, x, w, c, -, -, -, -, hstore, rfl⟩ := assignment_ok h
  refine Writes.release ?_
  obtain ⟨s, m', hs', tmp, -, htmp, rfl⟩ | ⟨-, o, tmp, -, htmp, rfl⟩ | ⟨-, -, o, -, rfl⟩ :=
    store_ok hstore
  · exact (Writes.refl.occupy.extend (forall_pair
      (.ofSpares (spares_write rfl rfl (a.guards_ofFrame.free htmp))) .store)).release
  · exact (Writes.refl.occupy.extend (forall_pair
      (.ofSpares (spares_write rfl rfl (a.guards_ofFrame.free htmp))) .store)).release
  · exact Writes.refl.extend (List.forall_mem_singleton.2 .store)

theorem call_keepsFrame {p : Procedure} {args : List Item} {i : Item}
    (h : call p args a = .ok i b) : a.Writes KeepsFrame b := by
  obtain ⟨c, hperform, rfl⟩ := call_ok h
  obtain ⟨-, -, hnewline⟩ | ⟨arg, rest, t, v, -, -, -, -, hv⟩ := perform_ok hperform
  · have hsaved : ∀ r ∈ saved newlineRegisters a, ¬ r.OfFrame := saved_not_ofFrame (by decide)
    have hcode : ∀ i ∈ newlineCode, i.KeepsFrame := by
      have hmove (r : Register) (o : Operand) (hr : ¬ r.OfFrame) :
          (Instr.mov (.reg r .qword) o).KeepsFrame := .ofSpares (spares_write rfl rfl hr)
      simp only [newlineCode, List.forall_mem_cons]
      exact ⟨hmove _ _ (by decide), hmove _ _ (by decide), hmove _ _ (by decide),
        hmove _ _ (by decide), .syscall, List.forall_mem_nil _⟩
    rw [writeNewline_ok hnewline]
    have hpop : ∀ i ∈ (saved newlineRegisters a).reverse.map Instr.pop, i.KeepsFrame :=
      pop_keepsFrame (by simpa using hsaved)
    exact (((Writes.refl.extend (push_keepsFrame hsaved)).occupyAll.extend hcode).release.extend
      hpop).release
  · exact (keepsFrame_of_spares (digitValue_spares hv a.guards_ofFrame)).release

end Emit

end Tern
