import Tern.Proofs.Emit.Safety
import Tern.Proofs.Machine.Encoding
import Tern.Proofs.Machine.Value

/-!
# The form of what is written

Every operation writes instructions of the known forms only, and the addresses in them are those
of its operands.  Where the result is in memory, its address is that of an operand or is made of
registers that an operand held or that were free.
-/

namespace Tern

/-- From `a` to `b` nothing but instructions with the property `P` is written. -/
def Assembly.Writes (P : Instr → Prop) (a b : Assembly) : Prop :=
  ∃ code : List Instr, b.lines = a.lines ++ (code.map Line.instr).toArray ∧ ∀ i ∈ code, P i

def Instr.isDivision : Instr → Bool
  | .div _ => true
  | _ => false

/-- An address in reach that was computed from registers. -/
structure Address.Computed (m : Address) : Prop extends m.InReach where
  base_ne : ∀ name, m.base ≠ .label name

/-- The operand refers to no address but one with the property `P`. -/
def Operand.Within (P : Address → Prop) : Operand → Prop
  | .mem _ m => P m
  | .label name => P { base := .label name }
  | _ => True

def Operand.refers : Operand → Bool
  | .mem .. | .label _ => true
  | _ => false

/-- A known form of instruction, with addresses that have the property `P`; it is a division only
if `D` holds. -/
structure Instr.Within (P : Address → Prop) (D : Prop) (i : Instr) : Prop where
  formed : i.Formed
  within : ∀ o ∈ i.operands, o.Within P
  division : i.isDivision = true → D

theorem Instr.Within.addresses {P : Address → Prop} {D : Prop} {i : Instr} (h : i.Within P D) :
    ∀ size m, .mem size m ∈ i.operands → P m := fun _ _ hm => h.within _ hm

theorem Operand.Within.imp {P Q : Address → Prop} {o : Operand} (h : o.Within P)
    (hPQ : ∀ m, P m → Q m) : o.Within Q := by
  cases o with
  | mem size m => exact hPQ m h
  | label name => exact hPQ _ h
  | reg | ah | imm | mask => trivial

theorem Instr.Within.imp {P Q : Address → Prop} {D : Prop} {i : Instr} (h : i.Within P D)
    (hPQ : ∀ m, P m → Q m) : i.Within Q D :=
  ⟨h.formed, fun o ho => (h.within o ho).imp hPQ, h.division⟩

def Value.Within (P : Address → Prop) : Value → Prop
  | .const .. | .reg .. => True
  | .mem _ m _ => P m

def Item.Within (P : Address → Prop) : Item → Prop
  | .value v => v.Within P
  | .void => True

namespace Assembly.Writes

variable {P : Instr → Prop} {a b c : Assembly} {code : List Instr} {rs : List Register}
  {r : Register}

theorem refl : a.Writes P a := ⟨[], by simp, by simp⟩

theorem trans (h : a.Writes P b) (h' : b.Writes P c) : a.Writes P c := by
  obtain ⟨code, hcode, hall⟩ := h
  obtain ⟨more, hmore, hall'⟩ := h'
  refine ⟨code ++ more, by simp [hcode, hmore, Array.append_assoc], fun i hi => ?_⟩
  exact (List.mem_append.1 hi).elim (hall i) (hall' i)

theorem congr {a' b' : Assembly} (h : a.Writes P b) (ha : a'.lines = a.lines)
    (hb : b'.lines = b.lines) : a'.Writes P b' := by
  obtain ⟨code, hcode, hall⟩ := h
  exact ⟨code, by rw [ha, hb, hcode], hall⟩

theorem extend (h : a.Writes P b) (hcode : ∀ i ∈ code, P i) : a.Writes P (b.extend code) :=
  h.trans ⟨code, rfl, hcode⟩

theorem occupy (h : a.Writes P b) : a.Writes P (b.occupy r) := h.congr rfl lines_occupy

theorem occupyAll (h : a.Writes P b) : a.Writes P (b.occupyAll rs) :=
  h.congr rfl (lines_occupyAll rs)

theorem release (h : a.Writes P b) : a.Writes P (b.release rs) := h.congr rfl rfl

end Assembly.Writes

/-! ## Operands -/

namespace Value

variable {P : Address → Prop} {v : Value} {w : Width} {o : Operand}

theorem Within.spelt (h : v.Within P) (ho : v.Spelt o) : o.Within P := by
  cases v with
  | const t n | reg t r =>
      obtain ⟨w, -, rfl⟩ := ho
      trivial
  | mem t m' hs =>
      cases ho
      exact h

theorem Within.speltSized (h : v.Within P) (ho : v.SpeltSized w o) : o.Within P := by
  cases v with
  | const t n | reg t r => exact h.spelt ho
  | mem t m' hs =>
      cases ho
      exact h

theorem Within.speltCount (h : v.Within P) (ho : v.SpeltCount o) : o.Within P := by
  cases v with
  | reg t r =>
      cases ho
      trivial
  | const t n | mem t m' hs => exact h.spelt ho

theorem movable_signed (w : Width) (n : Int) : w.Movable (Word.signed w.bytes n) := by
  have hpos : 0 < w.bytes := by cases w <;> decide
  have hle : (2 : Int) ^ (8 * w.bytes - 1) ≤ 2 ^ (8 * w.bytes) := by cases w <;> decide
  obtain ⟨hlow, hhigh⟩ := Word.signed_bounds hpos n
  exact ⟨hlow, by omega⟩

theorem movable_unsigned (w : Width) (n : Int) : w.Movable (Word.unsigned w.bytes n) := by
  have hlow := Word.unsigned_nonneg w.bytes n
  have hhigh := Word.unsigned_lt w.bytes n
  have hcast : ((2 ^ (8 * w.bytes) : Nat) : Int) = 2 ^ (8 * w.bytes) := by simp
  have hneg : -(2 : Int) ^ (8 * w.bytes - 1) ≤ 0 := by cases w <;> decide
  exact ⟨by omega, by omega⟩

theorem immediate_signed {t : Ty} {n : Int} (h : Emit.needsRegister (.const t n) w = false) :
    w.Immediate (Word.signed w.bytes n) := by
  cases w with
  | qword =>
      have hfits : Word.fitsSigned32 n = true := by simpa [Emit.needsRegister] using h
      rw [Word.fitsSigned32, Bool.and_eq_true, decide_eq_true_eq, decide_eq_true_eq] at hfits
      exact hfits
  | byte => exact Word.signed_bounds (by decide) n
  | word => exact Word.signed_bounds (by decide) n
  | dword => exact Word.signed_bounds (by decide) n

theorem Spelt.loads (h : v.Spelt o) (hw : v.type.size = w.bytes) : o.Loads w := by
  cases v with
  | const t n =>
      obtain ⟨w', hw', rfl⟩ := h
      obtain rfl := Width.bytes_inj (hw'.symm.trans hw)
      exact .imm (movable_signed w' n)
  | reg t r =>
      obtain ⟨w', hw', rfl⟩ := h
      obtain rfl := Width.bytes_inj (hw'.symm.trans hw)
      exact .reg r
  | mem t m hs =>
      cases h
      exact .mem m (.inl rfl)

theorem Spelt.combines (h : v.Spelt o) (hw : v.type.size = w.bytes)
    (hn : Emit.needsRegister v w = false) : o.Combines w := by
  cases v with
  | const t n =>
      obtain ⟨w', hw', rfl⟩ := h
      obtain rfl := Width.bytes_inj (hw'.symm.trans hw)
      exact .imm (immediate_signed hn)
  | reg t r =>
      obtain ⟨w', hw', rfl⟩ := h
      obtain rfl := Width.bytes_inj (hw'.symm.trans hw)
      exact .reg r
  | mem t m hs =>
      cases h
      exact .mem m (.inl rfl)

theorem SpeltSized.stands (h : v.SpeltSized w o) (hw : v.type.size = w.bytes)
    (hconst : v.isConst = false) : o.Stands w := by
  cases v with
  | const t n => cases hconst
  | reg t r =>
      obtain ⟨w', hw', rfl⟩ := h
      obtain rfl := Width.bytes_inj (hw'.symm.trans hw)
      exact .reg r
  | mem t m hs =>
      cases h
      exact .mem m

theorem SpeltCount.loads (h : v.SpeltCount o) (hconst : v.isConst = false) : o.Loads .byte := by
  cases v with
  | const t n => cases hconst
  | reg t r =>
      cases h
      exact .reg r
  | mem t m hs =>
      cases h
      exact .mem m (.inl rfl)

end Value

/-! ## Single instructions -/

namespace Instr.Within

variable {P : Address → Prop} {D : Prop} {r : Register} {w w' : Width} {o : Operand} {m : Address}

theorem move (h : o.Loads w) (ho : o.Within P) : (Instr.mov (.reg r w) o).Within P D :=
  ⟨.move h, List.forall_mem_cons.2 ⟨trivial, List.forall_mem_singleton.2 ho⟩, nofun⟩

theorem combine {op : Combine} (h : o.Combines w) (ho : o.Within P) :
    (Instr.combine op (.reg r w) o).Within P D :=
  ⟨.combine h, List.forall_mem_cons.2 ⟨trivial, List.forall_mem_singleton.2 ho⟩, nofun⟩

theorem extend (h : o.Stands w') (hw : w'.bytes < 4) (hw' : w'.bytes < w.bytes)
    (ho : o.Within P) : (Instr.movzx (.reg r w) o).Within P D :=
  ⟨.extend h hw hw', List.forall_mem_cons.2 ⟨trivial, List.forall_mem_singleton.2 ho⟩, nofun⟩

theorem mul (h : o.Stands w) (ho : o.Within P) : (Instr.mul o).Within P D :=
  ⟨.mul h, by simp [operands, ho], nofun⟩

theorem div (h : o.Stands w) (ho : o.Within P) (hD : D) : (Instr.div o).Within P D :=
  ⟨.div h, by simp [operands, ho], fun _ => hD⟩

theorem store {size : Option Width} (h : size = none ∨ size = some w) (hm : P m) :
    (Instr.mov (.mem size m) (.reg r w)).Within P D :=
  ⟨.store h, by simp [operands, Operand.Within, hm], nofun⟩

theorem storeNumber {v : Int} (h : w.Immediate v) (hm : P m) :
    (Instr.mov (.mem (some w) m) (.imm v)).Within P D :=
  ⟨.storeNumber h, by simp [operands, Operand.Within, hm], nofun⟩

theorem lea (hm : P m) : (Instr.lea r m).Within P D :=
  ⟨.lea, by simp [operands, Operand.Within, hm], nofun⟩

theorem plain {i : Instr} (h : i.Formed)
    (hplain : (i.operands.all (!·.refers) && !i.isDivision) = true) : i.Within P D := by
  rw [Bool.and_eq_true, Bool.not_eq_true'] at hplain
  refine ⟨h, fun o ho => ?_, fun hdivision => ?_⟩
  · have hrefers := List.all_eq_true.1 hplain.1 o ho
    cases o with
    | mem size m | label name => cases hrefers
    | reg | ah | imm | mask => trivial
  · rw [hplain.2] at hdivision
    cases hdivision

end Instr.Within

namespace Emit

open Assembly

variable {P : Address → Prop} {D : Prop} {a b : Assembly} {v : Value} {w : Width} {r : Register}

theorem forall_pair {Q : Instr → Prop} {i j : Instr} (hi : Q i) (hj : Q j) :
    ∀ k ∈ [i, j], Q k :=
  List.forall_mem_cons.2 ⟨hi, List.forall_mem_singleton.2 hj⟩

/-! ## Arithmetic -/

theorem negate_writes {i : Item} (h : negate i a = .ok v b) (hi : i.Within P) :
    a.Writes (Instr.Within P D) b := by
  obtain ⟨u, r, w, o, rfl, -, -, hw, ho, -, rfl⟩ := negate_ok h
  refine (Writes.refl.occupy.extend (forall_pair ?_ ?_)).release
  · exact .move (ho.loads hw) (Value.Within.spelt hi ho)
  · exact .plain .neg rfl

theorem immediate_mask {w' : Width} (h : w'.bytes < w.bytes) (hw' : w'.bytes ≠ 4) :
    w.Immediate (2 ^ (8 * w'.bytes) - 1) := by
  cases w <;> cases w' <;> simp [Width.bytes] at h hw' <;>
    exact ⟨by decide, by decide⟩

theorem zeroExtend_writes {source target : Ty} {u : Unit} {w' : Width}
    (h : zeroExtend r source target a = .ok u b) (hw' : source.size = w'.bytes)
    (hlt : source.size < target.size) : a.Writes (Instr.Within P D) b := by
  rcases zeroExtend_ok h with ⟨-, rfl⟩ | ⟨w, hne, hw, rfl⟩
  · refine Writes.refl.extend (List.forall_mem_singleton.2 ?_)
    exact .plain (.move (.reg r)) rfl
  · refine Writes.refl.extend (List.forall_mem_singleton.2 ?_)
    rw [hw'] at hlt hne ⊢
    exact .plain (.combine (.mask (immediate_mask (hw ▸ hlt) hne))) rfl

theorem load_writes {source target : Ty} {m : Address} {u : Unit}
    (h : load r source target m a = .ok u b) (hm : P m) : a.Writes (Instr.Within P D) b := by
  have hload (w : Width) : (Instr.mov (.reg r w) (.mem none m)).Within P D :=
    .move (.mem m (.inl rfl)) hm
  rcases load_ok h with ⟨w, w', -, -, -, rfl⟩ | ⟨w, -, -, rfl⟩
  · exact Writes.refl.extend (forall_pair (.plain (.combine (.reg r)) rfl) (hload w'))
  · exact Writes.refl.extend (List.forall_mem_singleton.2 (hload w))

theorem convert_writes {u : Value} {t : Ty} (h : convert u t a = .ok v b)
    (hw : u.type.size = w.bytes) (hu : u.Within P) :
    a.Writes (Instr.Within P D) b ∧ v.Within P := by
  rcases convert_ok h with ⟨-, rfl, rfl⟩ | ⟨-, h⟩
  · refine ⟨.refl, ?_⟩
    cases u with
    | const | reg => trivial
    | mem => exact hu
  · rcases resize_ok h with ⟨s, r, rfl, rfl, ⟨hlt, hextend⟩ | ⟨-, rfl⟩⟩ |
      ⟨s, m, hs, r, c, rfl, rfl, -, hload, rfl⟩
    · exact ⟨zeroExtend_writes hextend hw hlt, trivial⟩
    · exact ⟨.refl, trivial⟩
    · exact ⟨(Writes.refl.occupy.trans (load_writes hload hu)).release, trivial⟩

theorem widen_writes {u : Value} {t : Ty} (h : widen u t a = .ok v b)
    (hw : u.type.size = w.bytes) (hu : u.Within P) :
    a.Writes (Instr.Within P D) b ∧ v.Within P := by
  rcases widen_ok h with ⟨hconst, rfl, rfl⟩ | ⟨-, h⟩
  · cases u with
    | const => exact ⟨.refl, trivial⟩
    | reg | mem => cases hconst
  · exact convert_writes h hw hu

theorem balance_writes {lhs rhs l r : Value} {w' : Width} (h : balance lhs rhs a = .ok (l, r) b)
    (hw : lhs.type.size = w.bytes) (hw' : rhs.type.size = w'.bytes) (hl : lhs.Within P)
    (hr : rhs.Within P) : a.Writes (Instr.Within P D) b ∧ l.Within P ∧ r.Within P := by
  rcases balance_ok h with ⟨-, rfl, h⟩ | ⟨-, rfl, h⟩ | ⟨-, rfl, rfl, rfl⟩
  · obtain ⟨hwrites, hr⟩ := widen_writes h hw' hr
    exact ⟨hwrites, hl, hr⟩
  · obtain ⟨hwrites, hl⟩ := widen_writes h hw hl
    exact ⟨hwrites, hl, hr⟩
  · exact ⟨.refl, hl, hr⟩

theorem toRegister_writes (h : toRegister v w a = .ok r b) (hw : v.type.size = w.bytes)
    (hv : v.Within P) : a.Writes (Instr.Within P D) b := by
  rcases toRegister_ok h with ⟨t, rfl, rfl⟩ | ⟨o, ho, -, rfl⟩
  · exact .refl
  · refine (Writes.refl.occupy.extend (List.forall_mem_singleton.2 ?_)).release
    exact .move (ho.loads hw) (hv.spelt ho)

theorem additive_writes {op : Combine} {lhs rhs : Value} (h : additive op w lhs rhs a = .ok v b)
    (hw : lhs.type.size = w.bytes) (hw' : rhs.type.size = w.bytes) (hl : lhs.Within P)
    (hr : rhs.Within P) : a.Writes (Instr.Within P D) b := by
  obtain ⟨dst, c, o, hdst, -, ho, ⟨tmp, hn, -, rfl⟩ | ⟨hn, rfl⟩⟩ := additive_ok h
  · obtain rfl := Machine.eq_qword_of_needsRegister hn
    refine ((toRegister_writes hdst hw hl).occupy.extend (forall_pair ?_ ?_)).release.release
    · exact .move (ho.loads hw') (hr.spelt ho)
    · exact .plain (.combine (.reg tmp)) rfl
  · refine ((toRegister_writes hdst hw hl).extend (List.forall_mem_singleton.2 ?_)).release
    exact .combine (ho.combines hw' hn) (hr.spelt ho)

/-- Pushing and popping is all that a reservation writes. -/
theorem forall_map_push (rs : List Register) : ∀ i ∈ rs.map Instr.push, i.Within P D := by
  simp only [List.mem_map, forall_exists_index, and_imp, forall_apply_eq_imp_iff₂]
  exact fun r _ => .plain .push rfl

theorem forall_map_pop (rs : List Register) : ∀ i ∈ rs.map Instr.pop, i.Within P D := by
  simp only [List.mem_map, forall_exists_index, and_imp, forall_apply_eq_imp_iff₂]
  exact fun r _ => .plain .pop rfl

theorem vacateCount_writes {q : Register} (h : vacateCount r a = .ok q b) :
    a.Writes (Instr.Within P D) b := by
  rcases vacateCount_ok h with ⟨-, -, rfl⟩ | ⟨-, -, rfl⟩
  · exact .refl
  · refine (Writes.refl.occupy.extend (List.forall_mem_singleton.2 ?_)).release
    exact .plain (.move (.reg .rcx)) rfl

theorem shift_writes {dir : Direction} {lhs rhs : Value} (h : shift dir w lhs rhs a = .ok v b)
    (hw : lhs.type.size = w.bytes) (hl : lhs.Within P) (hr : rhs.Within P) :
    a.Writes (Instr.Within P D) b := by
  obtain ⟨dst, c, hdst, ⟨t, n, rfl, -, rfl⟩ | ⟨hconst, r, -, h⟩⟩ := shift_ok h
  · refine (toRegister_writes hdst hw hl).extend (List.forall_mem_singleton.2 ?_)
    have hlt := Word.unsigned_lt 1 n
    exact .plain (.shiftNumber (Word.unsigned_nonneg 1 n) (by omega)) rfl
  · obtain ⟨d, o, hmoved, ho, rfl⟩ := shiftByCount_ok h
    have hcount : ∀ i ∈ [.mov (.reg .rcx .byte) o, .shift dir (.reg r w) (.reg .rcx .byte)],
        Instr.Within P D i := by
      refine forall_pair ?_ (.plain .shiftCount rfl)
      exact .move (ho.loads hconst) (hr.speltCount ho)
    have hmoved := (toRegister_writes hdst hw hl).trans (vacateCount_writes (D := D) hmoved)
    exact (((hmoved.extend (forall_map_push _)).occupyAll.extend hcount).release.extend
      (forall_map_pop _)).release

theorem fillAccumulator_writes {u : Unit} (h : fillAccumulator v w a = .ok u b)
    (hw : v.type.size = w.bytes) (hv : v.Within P) : a.Writes (Instr.Within P D) b := by
  rcases fillAccumulator_ok h with ⟨t, n, rfl, rfl⟩ | ⟨hconst, hlt, o, ho, rfl⟩ |
    ⟨-, -, o, ho, rfl⟩
  · refine Writes.refl.extend (List.forall_mem_singleton.2 ?_)
    have hfits : (if w = .qword then Width.qword else .dword).Movable
        (Word.unsigned w.bytes n) := by
      obtain ⟨hlow, hhigh⟩ := Value.movable_unsigned w n
      have hnonneg := Word.unsigned_nonneg w.bytes n
      cases w <;> simp only [reduceCtorEq, if_true, if_false, Width.Movable, Width.bytes] at * <;>
        omega
    exact .plain (.move (.imm hfits)) rfl
  · refine Writes.refl.extend (List.forall_mem_singleton.2 ?_)
    exact .extend (ho.stands hw hconst) hlt hlt (hv.speltSized ho)
  · refine Writes.refl.extend (List.forall_mem_singleton.2 ?_)
    exact .move (ho.loads hw) (hv.spelt ho)

theorem stage_writes {f : Value} {staged : List Register} (h : stage v w a = .ok (f, staged) b)
    (hw : v.type.size = w.bytes) (hv : v.Within P) :
    a.Writes (Instr.Within P D) b ∧ f.Within P ∧ f.type.size = w.bytes ∧ f.isConst = false := by
  rcases stage_ok h with ⟨-, tmp, o, -, ho, rfl, -, rfl⟩ | ⟨hconst, -, rfl, -, rfl⟩
  · refine ⟨Writes.refl.occupy.extend (List.forall_mem_singleton.2 ?_), trivial, hw, rfl⟩
    exact .move (ho.loads hw) (hv.spelt ho)
  · exact ⟨.refl, hv, hw, hconst⟩

theorem accumulateCode_within {op : WideOp} {o : Operand} (ho : o.Stands w)
    (ho' : o.Within P) (hD : op ≠ .product → D) :
    ∀ i ∈ accumulateCode op w o, i.Within P D := by
  have hdivide (hD : D) : ∀ i ∈ divideCode w o, i.Within P D := by
    unfold divideCode
    split
    · exact List.forall_mem_singleton.2 (.div ho ho' hD)
    · exact forall_pair (.plain (.combine (.reg .rdx)) rfl) (.div ho ho' hD)
  have hremainder : (remainderCode w).Within P D := by
    unfold remainderCode
    split
    · exact .plain (.move (.ah rfl)) rfl
    · exact .plain (.move (.reg .rdx)) rfl
  cases op with
  | product => exact List.forall_mem_singleton.2 (.mul ho ho')
  | quotient => exact hdivide (hD nofun)
  | remainder =>
      exact List.forall_mem_append.2 ⟨hdivide (hD nofun), List.forall_mem_singleton.2 hremainder⟩

theorem wide_writes {op : WideOp} {lhs rhs : Value} (h : wide op w lhs rhs a = .ok v b)
    (hw : lhs.type.size = w.bytes) (hw' : rhs.type.size = w.bytes) (hl : lhs.Within P)
    (hr : rhs.Within P) (hD : op ≠ .product → D) : a.Writes (Instr.Within P D) b := by
  obtain ⟨f, staged, c, d, o, dst, e, hstage, hfill, ho, rfl, -, -, rfl⟩ := wide_ok h
  obtain ⟨hstaged, hf, hsize, hconst⟩ := stage_writes (D := D) hstage hw' hr
  have hfactor := accumulateCode_within (ho.stands hsize hconst)
    ((hf.speltSized ho)) hD
  have hsaved := (Writes.refl.extend (forall_map_push _)).occupyAll.trans hstaged
  have hfilled := hsaved.trans (fillAccumulator_writes hfill hw hl)
  have hresult : ∀ i ∈ [Instr.mov (.reg dst w) (.reg .rax w)], i.Within P D :=
    List.forall_mem_singleton.2 (.plain (.move (.reg .rax)) rfl)
  exact ((hfilled.extend hfactor).release.extend (forall_map_pop _)).release.release.release.occupy
    |>.extend hresult

theorem operation_writes {op : BinaryOp} {lhs rhs : Value} (h : operation op lhs rhs a = .ok v b)
    (hl : lhs.Within P) (hr : rhs.Within P) (hD : op = .div ∨ op = .mod → D) :
    a.Writes (Instr.Within P D) b := by
  obtain ⟨w, hw, hw', h⟩ := operation_ok h
  cases op with
  | add | sub => exact additive_writes h hw hw' hl hr
  | shl | shr => exact shift_writes h hw hl hr
  | mul => exact wide_writes h hw hw' hl hr fun h => absurd rfl h
  | div => exact wide_writes h hw hw' hl hr fun _ => hD (.inl rfl)
  | mod => exact wide_writes h hw hw' hl hr fun _ => hD (.inr rfl)

/-! ## Access to memory -/

theorem reference_writes {i : Item} (h : reference i a = .ok v b) (hi : i.Within P) :
    a.Writes (Instr.Within P D) b := by
  obtain ⟨t, m, hs, r, rfl, -, -, rfl⟩ := reference_ok h
  exact (Writes.refl.occupy.extend (List.forall_mem_singleton.2 (.lea hi))).release

theorem elementBase_writes (h : elementBase v a = .ok r b) (hv : v.Within P)
    (hpool : ∀ q ∈ v.held, q ∈ Register.pool) :
    a.Writes (Instr.Within P D) b ∧ r ∈ Register.pool := by
  rcases elementBase_ok h with ⟨t, rfl, rfl⟩ | ⟨t, m, hs, rfl, hr, rfl⟩
  · exact ⟨.refl, hpool r (List.mem_singleton_self r)⟩
  · refine ⟨(Writes.refl.occupy.extend (List.forall_mem_singleton.2 ?_)).release,
      (firstFree?_eq_some hr).1⟩
    split
    · exact .lea hv
    · exact .move (.mem m (.inl rfl)) hv

theorem extendedMove_within {o : Operand} (ho : o.Stands w)
    (ho' : o.Within P) : (extendedMove r w o).Within P D := by
  unfold extendedMove
  split
  · next hlt => exact .extend ho hlt (Nat.lt_trans hlt (by decide)) ho'
  · refine .move ?_ ho'
    cases ho with
    | reg q => exact .reg q
    | mem m => exact .mem m (.inr rfl)

theorem extendIndex_writes (h : extendIndex v a = .ok r b) (hconst : v.isConst = false)
    (hv : v.Within P) (hpool : ∀ q ∈ v.held, q ∈ Register.pool) :
    a.Writes (Instr.Within P D) b ∧ r ∈ Register.pool := by
  obtain ⟨w, hw, ⟨t, rfl, rfl⟩ | ⟨-, o, ho, hr, rfl⟩⟩ := extendIndex_ok h
  · refine ⟨Writes.refl.extend ?_, hpool r (List.mem_singleton_self r)⟩
    split
    · exact List.forall_mem_nil _
    · exact List.forall_mem_singleton.2 (extendedMove_within (.reg r) trivial)
  · refine ⟨(Writes.refl.occupy.extend (List.forall_mem_singleton.2 ?_)).release,
      (firstFree?_eq_some hr).1⟩
    exact extendedMove_within (ho.stands hw hconst) (hv.speltSized ho)

section

variable {e : Ty} {base index : Register} (hP : ∀ m : Address, m.Computed → P m)
include hP

theorem scaledElement_writes (h : scaledElement e base index a = .ok v b) (he : e.size < 2 ^ 31)
    (hbase : base ∈ Register.pool) (hindex : index ∈ Register.pool) :
    a.Writes (Instr.Within P D) b ∧ v.Within P := by
  have hpair (scale : Int) : ∀ r ∈ ({ base := .reg index, scale, offset := .reg base } :
      Address).registers, r ∈ Register.pool ∨ r = .rbp := by
    simp [Address.registers, hbase, hindex]
  have hscale (w : Width) : (w.bytes : Int) ∈ [1, 2, 4, 8] := by cases w <;> decide
  rcases scaledElement_ok h with ⟨w, hw, rfl, rfl⟩ | ⟨-, rfl, rfl⟩
  · exact ⟨.refl, hP _ ⟨⟨by rintro _ ⟨⟩, hw ▸ hscale w, hpair _⟩, by rintro _ ⟨⟩⟩⟩
  · refine ⟨Writes.refl.extend (List.forall_mem_singleton.2 ?_),
      hP _ ⟨⟨by rintro _ ⟨⟩, by simp, hpair _⟩, by rintro _ ⟨⟩⟩⟩
    exact .plain (.imul he) rfl

theorem constantElement_writes {i : Int} (h : constantElement e base i a = .ok v b) (hi : 0 ≤ i)
    (he : e.size < 2 ^ 31) (hbase : base ∈ Register.pool) :
    a.Writes (Instr.Within P D) b ∧ v.Within P := by
  rcases constantElement_ok h with ⟨hle, rfl, rfl⟩ | ⟨-, r, hr, h⟩
  · refine ⟨.refl, hP _ ⟨⟨fun n hn => ?_, by simp, by simp [Address.registers, hbase]⟩,
      by rintro _ ⟨⟩⟩⟩
    obtain rfl : i * e.size = n := by simpa using hn
    have hnonneg : 0 ≤ i * e.size := Int.mul_nonneg hi (by omega)
    unfold Word.maxDisplacement at hle
    omega
  · have hmoved : a.Writes (Instr.Within P D) ((a.occupy r).extend
        [.mov (.reg r .qword) (.imm (Word.signed 8 i))]) := by
      refine Writes.refl.occupy.extend (List.forall_mem_singleton.2 ?_)
      exact .plain (.move (.imm (Value.movable_signed .qword i))) rfl
    obtain ⟨hwrites, hv⟩ := scaledElement_writes hP h he hbase (firstFree?_eq_some hr).1
    exact ⟨hmoved.trans hwrites, hv⟩

theorem element_writes {array index : Item} (h : element array index a = .ok v b)
    (harray : array.Within P) (hindex : index.Within P)
    (hpool : ∀ r ∈ array.held ++ index.held, r ∈ Register.pool)
    (he : ∀ x e, array = .value x → x.type.element? = some e → e.size < 2 ^ 31) :
    a.Writes (Instr.Within P D) b ∧ v.Within P := by
  obtain ⟨hleft, hright⟩ := List.forall_mem_append.1 hpool
  obtain ⟨x, t, base, c, rfl, -, ht, hbase, h⟩ := element_ok h
  obtain ⟨hwrites, hbase⟩ := elementBase_writes hbase harray hleft
  rcases elementAt_ok h with ⟨s, n, w, rfl, -, h⟩ | ⟨y, r, d, rfl, hconst, hextend, h⟩
  · obtain ⟨hrest, hv⟩ :=
      constantElement_writes hP h (Word.unsigned_nonneg _ _) (he x t rfl ht) hbase
    exact ⟨hwrites.trans hrest, hv⟩
  · obtain ⟨hextended, hr⟩ := extendIndex_writes hextend hconst hindex hright
    obtain ⟨hrest, hv⟩ := scaledElement_writes hP h (he x t rfl ht) hbase hr
    exact ⟨(hwrites.trans hextended).trans hrest, hv⟩

end

theorem assignment_writes {target source : Item} (h : assignment target source a = .ok v b)
    (htypes : ∀ t s, target = .value t → source = .value s → t.type = s.type)
    (htarget : target.Within P) (hsource : source.Within P) :
    a.Writes (Instr.Within P D) b ∧ v.Within P := by
  obtain ⟨t, m, hs, x, w, c, rfl, rfl, rfl, hw, hstore, rfl⟩ := assignment_ok h
  have hx : x.type.size = w.bytes := htypes _ _ rfl rfl ▸ hw
  refine ⟨Writes.release ?_, htarget⟩
  rcases store_ok hstore with ⟨s, m', hs', tmp, rfl, -, rfl⟩ | ⟨hn, o, tmp, ho, -, rfl⟩ |
    ⟨hmem, hn, o, ho, rfl⟩
  · refine (Writes.refl.occupy.extend (forall_pair ?_ (.store (.inl rfl) htarget))).release
    exact .move (.mem m' (.inl rfl)) hsource
  · obtain rfl := Machine.eq_qword_of_needsRegister hn
    refine (Writes.refl.occupy.extend (forall_pair ?_ (.store (.inl rfl) htarget))).release
    exact .move (ho.loads hx) (Value.Within.spelt hsource ho)
  · refine Writes.refl.extend (List.forall_mem_singleton.2 ?_)
    cases x with
    | mem s m' hs' => exact absurd rfl (hmem s m' hs')
    | const s n =>
        obtain ⟨w', hw', rfl⟩ := ho
        obtain rfl := Width.bytes_inj (hw'.symm.trans hx)
        exact .storeNumber (Value.immediate_signed hn) htarget
    | reg s r =>
        obtain ⟨w', hw', rfl⟩ := ho
        obtain rfl := Width.bytes_inj (hw'.symm.trans hx)
        exact .store (.inr rfl) htarget

theorem newlineCode_within (hnewline : P { base := .label newlineLabel }) :
    ∀ i ∈ newlineCode, i.Within P D := by
  have hone (r : Register) : (Instr.mov (.reg r .qword) (.imm 1)).Within P D :=
    .plain (.move (.imm ⟨by decide, by decide⟩)) rfl
  simp only [newlineCode, List.forall_mem_cons]
  exact ⟨hone _, hone _, .move (.label _ rfl) hnewline, hone _, .plain .syscall rfl,
    List.forall_mem_nil _⟩

theorem call_writes {p : Procedure} {args : List Value} {i : Item}
    (h : call p (args.map Item.value) a = .ok i b) (hp : IsPredefined p)
    (hargs : args.map Value.type = p.params) (hwithin : ∀ v ∈ args, v.Within P)
    (hnewline : P { base := .label newlineLabel }) :
    a.Writes (Instr.Within P D) b ∧ i.Within P := by
  obtain ⟨c, hperform, rfl⟩ := call_ok h
  rcases perform_ok hperform with ⟨-, rfl, hwrite⟩ | ⟨arg, rest, t, v, hdigit, heq, -, rfl, hv⟩
  · refine ⟨Writes.release ?_, trivial⟩
    rw [writeNewline_ok hwrite]
    exact (((Writes.refl.extend (forall_map_push _)).occupyAll.extend
      (newlineCode_within hnewline)).release.extend (forall_map_pop _))
  · obtain ⟨x, r, o, rfl, -, ho, rfl, rfl⟩ := digitValue_ok hv
    refine ⟨(Writes.refl.occupy.extend (forall_pair ?_ ?_)).release, trivial⟩
    · have hx : x ∈ args := by
        have hmem : Item.value x ∈ args.map Item.value := heq ▸ List.mem_cons_self
        simpa using hmem
      have hparams : p.params = [.builtin .char] := by
        rcases isPredefined_iff.1 hp with rfl | rfl
        · cases hdigit
        · rfl
      have hsize : x.type.size = Width.byte.bytes := by
        have htype : x.type ∈ args.map Value.type := List.mem_map_of_mem hx
        rw [hargs, hparams, List.mem_singleton] at htype
        rw [htype]
        rfl
      exact .move (ho.loads hsize) ((hwithin x hx).spelt ho)
    · exact .plain (.combine (.imm ⟨by decide, by decide⟩)) rfl

end Emit

end Tern
