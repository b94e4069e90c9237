import Tern.Proofs.Emit.Access
import Tern.Compile.Expr

/-!
# Ownership of registers

A value owns the registers that it holds.  Every operation gives up the registers of its
operands and takes over those of its result, and leaves all other registers as they were.
What a value in memory needs to be reached is among the registers that it holds.
-/

namespace Tern

namespace Assembly

/-- The registers `rs` are in use, each of them once. -/
structure Owns (a : Assembly) (rs : List Register) : Prop where
  nodup : rs.Nodup
  busy : ∀ r ∈ rs, r ∈ a.busy

/-- From `a` to `b` nothing but instructions is written. -/
def Extends (a b : Assembly) : Prop :=
  ∃ code : List Instr, b.lines = a.lines ++ (code.map Line.instr).toArray

/-- From `a` to `b` the registers `used` are given up and the registers `made` taken over.  A
register of `made` was free or is one of `used`.  Nothing but instructions is written, and the
open frames stay as they are. -/
structure Transfer (a : Assembly) (used : List Register) (b : Assembly)
    (made : List Register) : Prop where
  nodup : made.Nodup
  apart : ∀ r ∈ made, r ∈ a.busy → r ∈ used
  pool : ∀ r ∈ made, r ∈ Register.pool ∨ r ∈ used
  busy : ∀ r, r ∈ b.busy ↔ (r ∈ a.busy ∧ r ∉ used) ∨ r ∈ made
  frames : b.frames = a.frames
  lines : a.Extends b

variable {a b c : Assembly} {used made more : List Register}

namespace Extends

theorem refl : a.Extends a := ⟨[], by simp⟩

theorem trans (h : a.Extends b) (h' : b.Extends c) : a.Extends c := by
  obtain ⟨code, hcode⟩ := h
  obtain ⟨more, hmore⟩ := h'
  exact ⟨code ++ more, by simp [hcode, hmore, Array.append_assoc]⟩

theorem of_lines (code : List Instr)
    (h : b.lines = a.lines ++ (code.map Line.instr).toArray) : a.Extends b := ⟨code, h⟩

theorem occupied (r : Register) (code : List Instr) (rs : List Register) :
    a.Extends (((a.occupy r).extend code).release rs) := .of_lines code (by simp)

end Extends

theorem Owns.nil : a.Owns [] := ⟨List.nodup_nil, by simp⟩

theorem Owns.left (h : a.Owns (used ++ more)) : a.Owns used :=
  ⟨(List.nodup_append.1 h.nodup).1, fun r hr => h.busy r (by simp [hr])⟩

theorem Owns.right (h : a.Owns (used ++ more)) : a.Owns more :=
  ⟨(List.nodup_append.1 h.nodup).2.1, fun r hr => h.busy r (by simp [hr])⟩

theorem Owns.apart (h : a.Owns (used ++ more)) {r : Register} (hr : r ∈ used) : r ∉ more :=
  fun hr' => (List.nodup_append.1 h.nodup).2.2 r hr r hr' rfl

namespace Transfer

theorem refl (h : a.Owns used) : a.Transfer used a used := by
  refine ⟨h.nodup, fun r hr _ => hr, fun r hr => .inr hr, fun r => ?_, rfl, .refl⟩
  constructor
  · intro hr
    by_cases hu : r ∈ used
    · exact .inr hu
    · exact .inl ⟨hr, hu⟩
  · rintro (hr | hr)
    · exact hr.1
    · exact h.busy r hr

theorem nothing : a.Transfer [] a [] := refl .nil

theorem owns (h : a.Transfer used b made) : b.Owns made :=
  ⟨h.nodup, fun r hr => (h.busy r).2 (.inr hr)⟩

theorem keeps (h : a.Transfer used b made) {r : Register} (hr : r ∈ a.busy) (hu : r ∉ used) :
    r ∈ b.busy := (h.busy r).2 (.inl ⟨hr, hu⟩)

theorem extend (h : a.Transfer used b made) (code : List Instr) :
    a.Transfer used (b.extend code) made :=
  ⟨h.nodup, h.apart, h.pool, h.busy, h.frames, h.lines.trans (.of_lines code rfl)⟩

theorem fresh {r : Register} (hr : a.firstFree? = some r) (h : a.Owns used)
    (code : List Instr) : a.Transfer used (((a.occupy r).extend code).release used) [r] := by
  obtain ⟨hpool, hfree⟩ := firstFree?_eq_some hr
  have hused : r ∉ used := fun hu => hfree (h.busy r hu)
  refine ⟨by simp, by simp [hfree], by simp [hpool], fun q => ?_, frames_occupy,
    .occupied r code used⟩
  simp only [mem_busy_release, busy_extend, mem_busy_occupy, List.mem_singleton]
  constructor
  · rintro ⟨hq | rfl, hu⟩
    · exact .inl ⟨hq, hu⟩
    · exact .inr rfl
  · rintro (⟨hq, hu⟩ | rfl)
    · exact ⟨.inl hq, hu⟩
    · exact ⟨.inr rfl, hused⟩

theorem acquired {r : Register} (hr : a.firstFree? = some r) (code : List Instr) :
    a.Transfer [] ((a.occupy r).extend code) [r] := by
  have h := fresh hr Owns.nil code
  rwa [release_nil] at h

/-- What the first operation makes is used up by the second. -/
theorem trans (h : a.Transfer used b made) (h' : b.Transfer made c more) :
    a.Transfer used c more := by
  refine ⟨h'.nodup, fun r hr ha => ?_, fun r hr => ?_, fun r => ?_, h'.frames.trans h.frames,
    h.lines.trans h'.lines⟩
  · by_cases hu : r ∈ used
    · exact hu
    · exact h.apart r (h'.apart r hr (h.keeps ha hu)) ha
  · rcases h'.pool r hr with hp | hm
    · exact .inl hp
    · exact h.pool r hm
  · rw [h'.busy, h.busy]
    constructor
    · rintro (⟨hr | hr, hm⟩ | hr)
      · exact .inl hr
      · exact absurd hr hm
      · exact .inr hr
    · rintro (hr | hr)
      · have hm : r ∉ made := fun hm => hr.2 (h.apart r hm hr.1)
        exact .inl ⟨.inl hr, hm⟩
      · exact .inr hr

/-- An operation leaves alone what it does not use. -/
theorem frame (h : a.Transfer used b made) (hown : a.Owns (used ++ more)) :
    a.Transfer (used ++ more) b (made ++ more) := by
  have hapart : ∀ r ∈ made, r ∉ more := fun r hr hm =>
    hown.apart (h.apart r hr (hown.right.busy r hm)) hm
  refine ⟨?_, fun r hr ha => ?_, fun r hr => ?_, fun r => ?_, h.frames, h.lines⟩
  · exact List.nodup_append.2 ⟨h.nodup, hown.right.nodup,
      fun r hr q hq hrq => hapart r hr (hrq ▸ hq)⟩
  · rcases List.mem_append.1 hr with hr | hr
    · exact List.mem_append_left _ (h.apart r hr ha)
    · exact List.mem_append_right _ hr
  · rcases List.mem_append.1 hr with hr | hr
    · exact (h.pool r hr).imp_right (List.mem_append_left _)
    · exact .inr (List.mem_append_right _ hr)
  · rw [h.busy, List.mem_append, List.mem_append]
    constructor
    · rintro (⟨hr, hu⟩ | hr)
      · by_cases hm : r ∈ more
        · exact .inr (.inr hm)
        · exact .inl ⟨hr, not_or.2 ⟨hu, hm⟩⟩
      · exact .inr (.inl hr)
    · rintro (⟨hr, hu⟩ | hr | hr)
      · exact .inl ⟨hr, fun h => hu (.inl h)⟩
      · exact .inr hr
      · have hu : r ∉ used := fun hu => hown.apart hu hr
        exact .inl ⟨hown.right.busy r hr, hu⟩

/-- Only which registers occur in the lists and in `busy` counts. -/
theorem congr {used' made' : List Register} {b' : Assembly} (h : a.Transfer used b made)
    (hused : ∀ r, r ∈ used' ↔ r ∈ used) (hmade : made'.Perm made)
    (hbusy : ∀ r, r ∈ b'.busy ↔ r ∈ b.busy) (hframes : b'.frames = b.frames)
    (hlines : b.Extends b') :
    a.Transfer used' b' made' := by
  refine ⟨hmade.nodup_iff.2 h.nodup, fun r hr ha => ?_, fun r hr => ?_, fun r => ?_,
    hframes.trans h.frames, h.lines.trans hlines⟩
  · exact (hused r).2 (h.apart r (hmade.mem_iff.1 hr) ha)
  · exact (h.pool r (hmade.mem_iff.1 hr)).imp_right (hused r).2
  · rw [hbusy, h.busy, hused, hmade.mem_iff]

theorem release (h : a.Owns (used ++ more)) : a.Transfer (used ++ more) (a.release more) used := by
  refine ⟨h.left.nodup, fun r hr _ => List.mem_append_left _ hr,
    fun r hr => .inr (List.mem_append_left _ hr), fun r => ?_, rfl, .of_lines [] (by simp)⟩
  rw [mem_busy_release, List.mem_append]
  constructor
  · rintro ⟨hr, hm⟩
    by_cases hu : r ∈ used
    · exact .inr hu
    · exact .inl ⟨hr, not_or.2 ⟨hu, hm⟩⟩
  · rintro (⟨hr, hu⟩ | hr)
    · exact ⟨hr, fun h => hu (.inr h)⟩
    · exact ⟨h.left.busy r hr, h.apart hr⟩

/-- Two operations in turn, the second of which leaves the result of the first alone. -/
theorem seq (h : a.Transfer [] b made) (h' : b.Transfer [] c more) :
    a.Transfer [] c (made ++ more) :=
  (h.trans (h'.frame h.owns)).congr (fun _ => Iff.rfl) List.perm_append_comm (fun _ => Iff.rfl) rfl
    .refl

end Transfer

theorem mem_busy_scratch {tmp r : Register} (htmp : a.firstFree? = some tmp)
    (code : List Instr) :
    r ∈ (((a.occupy tmp).extend code).release [tmp]).busy ↔ r ∈ a.busy := by
  have hfree := (firstFree?_eq_some htmp).2
  simp only [mem_busy_release, busy_extend, mem_busy_occupy, List.mem_singleton]
  constructor
  · rintro ⟨hr | hr, hne⟩
    · exact hr
    · exact absurd hr hne
  · intro hr
    exact ⟨.inl hr, fun h => hfree (h ▸ hr)⟩

end Assembly

/-- The address of a value in memory is computed from the frame pointer and from registers that
the value holds. -/
def Value.Closed : Value → Prop
  | .const .. | .reg .. => True
  | .mem _ m hs => ∀ r ∈ m.registers, r = .rbp ∨ r ∈ hs

instance : DecidablePred Value.Closed
  | .const .. | .reg .. => .isTrue trivial
  | .mem _ m hs => inferInstanceAs (Decidable (∀ r ∈ m.registers, r = .rbp ∨ r ∈ hs))

theorem Value.Closed.withType {v : Value} (h : v.Closed) (t : Ty) : (v.withType t).Closed := by
  cases v with
  | const | reg => trivial
  | mem => exact h

def Item.Closed : Item → Prop
  | .value v => v.Closed
  | .void => True

namespace Emit

open Assembly

variable {a b : Assembly} {used : List Register}

theorem mem_busy_reserved {rs : List Register} {r : Register} (before code : List Instr) :
    r ∈ ((((a.extend before).occupyAll (blocked rs a)).extend code).release
      (blocked rs a)).busy ↔ r ∈ a.busy := by
  simp only [mem_busy_release, busy_extend, mem_busy_occupyAll,
    mem_blocked]
  constructor
  · rintro ⟨hr | hr, hb⟩
    · exact hr
    · exact absurd hr hb
  · intro hr
    exact ⟨.inl hr, fun h => h.2 hr⟩

theorem negate_transfer {u v : Value} (h : negate (.value u) a = .ok v b)
    (hown : a.Owns u.held) : a.Transfer u.held b v.held := by
  obtain ⟨_, r, w, o, hu, -, hr, -, -, rfl, rfl⟩ := negate_ok h
  cases hu
  exact .fresh hr hown _

theorem resize_transfer {t : Ty} {u v : Value} (h : resize t u a = .ok v b)
    (hown : a.Owns u.held) : a.Transfer u.held b v.held := by
  rcases resize_ok h with ⟨source, r, rfl, rfl, hz | ⟨-, rfl⟩⟩ | ⟨source, m, hs, r, c, rfl, rfl,
    hr, hload, rfl⟩
  · rcases zeroExtend_ok hz.2 with ⟨-, rfl⟩ | ⟨w, -, -, rfl⟩
    · exact (Transfer.refl hown).extend _
    · exact (Transfer.refl hown).extend _
  · exact .refl hown
  · rcases load_ok hload with ⟨w, w', -, -, -, rfl⟩ | ⟨w, -, -, rfl⟩
    · exact .fresh hr hown _
    · exact .fresh hr hown _

theorem convert_transfer {u v : Value} {t : Ty} (h : convert u t a = .ok v b)
    (hown : a.Owns u.held) : a.Transfer u.held b v.held := by
  rcases convert_ok h with ⟨-, rfl, rfl⟩ | ⟨-, h⟩
  · rw [Value.held_withType]
    exact .refl hown
  · exact resize_transfer h hown

theorem widen_transfer {u v : Value} {t : Ty} (h : widen u t a = .ok v b)
    (hown : a.Owns u.held) : a.Transfer u.held b v.held := by
  rcases widen_ok h with ⟨-, rfl, rfl⟩ | ⟨-, h⟩
  · rw [Value.held_withType]
    exact .refl hown
  · exact convert_transfer h hown

theorem toRegister_transfer {v : Value} {w : Width} {r : Register}
    (h : toRegister v w a = .ok r b) (hown : a.Owns v.held) : a.Transfer v.held b [r] := by
  rcases toRegister_ok h with ⟨t, rfl, rfl⟩ | ⟨o, -, hr, rfl⟩
  · exact .refl hown
  · exact .fresh hr hown _

theorem balance_transfer {lhs rhs l r : Value} (h : balance lhs rhs a = .ok (l, r) b)
    (hown : a.Owns (lhs.held ++ rhs.held)) :
    a.Transfer (lhs.held ++ rhs.held) b (l.held ++ r.held) := by
  rcases balance_ok h with ⟨-, rfl, h⟩ | ⟨-, rfl, h⟩ | ⟨-, rfl, rfl, rfl⟩
  · have hown' : a.Owns (rhs.held ++ l.held) :=
      ⟨List.perm_append_comm.nodup_iff.1 hown.nodup, fun q hq => hown.busy q (by grind)⟩
    refine ((widen_transfer h hown.right).frame hown').congr (fun q => ?_)
      List.perm_append_comm (fun q => Iff.rfl) rfl .refl
    simp only [List.mem_append, or_comm]
  · exact (widen_transfer h hown.left).frame hown
  · exact .refl hown

theorem additive_transfer {op : Combine} {w : Width} {lhs rhs v : Value}
    (h : additive op w lhs rhs a = .ok v b) (hown : a.Owns (lhs.held ++ rhs.held)) :
    a.Transfer (lhs.held ++ rhs.held) b v.held := by
  obtain ⟨dst, c, o, hdst, rfl, -, h⟩ := additive_ok h
  have hleft := (toRegister_transfer hdst hown.left).frame hown
  have hright := hleft.trans (.release hleft.owns)
  rcases h with ⟨tmp, -, htmp, rfl⟩ | ⟨-, rfl⟩
  · refine hright.congr (fun q => Iff.rfl) (.refl _) (fun q => ?_) frames_occupy
      (.of_lines [.mov (.reg tmp .qword) o, .combine op (.reg dst w) (.reg tmp .qword)] (by simp))
    rw [mem_busy_release, mem_busy_scratch htmp, mem_busy_release]
  · exact hright.extend _

theorem vacateCount_transfer {r q : Register} (h : vacateCount r a = .ok q b)
    (hown : a.Owns [r]) : a.Transfer [r] b [q] := by
  rcases vacateCount_ok h with ⟨-, rfl, rfl⟩ | ⟨rfl, hq, rfl⟩
  · exact .refl hown
  · exact .fresh hq hown _

theorem shiftByCount_transfer {dir : Direction} {w : Width} {dst r : Register} {rhs : Value}
    (h : shiftByCount dir w dst rhs a = .ok r b) (hown : a.Owns ([dst] ++ rhs.held)) :
    a.Transfer ([dst] ++ rhs.held) b [r] := by
  obtain ⟨c, o, hdst, -, rfl⟩ := shiftByCount_ok h
  have hleft := (vacateCount_transfer hdst hown.left).frame hown
  refine (hleft.trans (.release hleft.owns)).congr (fun q => Iff.rfl) (.refl _) (fun q => ?_)
    (frames_occupyAll _) (.of_lines ((saved [.rcx] c).map .push ++
      [.mov (.reg .rcx .byte) o, .shift dir (.reg r w) (.reg .rcx .byte)] ++
      (saved [.rcx] c).reverse.map .pop) (by simp [Array.append_assoc]))
  rw [mem_busy_release, busy_extend, mem_busy_reserved,
    mem_busy_release]

theorem shift_transfer {dir : Direction} {w : Width} {lhs rhs v : Value}
    (h : shift dir w lhs rhs a = .ok v b) (hown : a.Owns (lhs.held ++ rhs.held)) :
    a.Transfer (lhs.held ++ rhs.held) b v.held := by
  obtain ⟨dst, c, hdst, hcount⟩ := shift_ok h
  have hleft := (toRegister_transfer hdst hown.left).frame hown
  rcases hcount with ⟨t, n, rfl, rfl, rfl⟩ | ⟨-, r, rfl, hcount⟩
  · exact hleft.extend _
  · exact hleft.trans (shiftByCount_transfer hcount hleft.owns)

theorem stage_busy {v f : Value} {w : Width} {staged : List Register}
    (h : stage v w a = .ok (f, staged) b) :
    (∀ r ∈ staged, r ∉ a.busy) ∧ (∀ r, r ∈ b.busy ↔ r ∈ a.busy ∨ r ∈ staged) ∧
      b.frames = a.frames ∧ a.Extends b := by
  rcases stage_ok h with ⟨-, tmp, o, htmp, -, rfl, rfl, rfl⟩ | ⟨-, -, rfl, rfl, rfl⟩
  · have hfree := (firstFree?_eq_some htmp).2
    exact ⟨by simpa using hfree, by simp, by simp, .of_lines [.mov (.reg tmp w) o] (by simp)⟩
  · exact ⟨by simp, by simp, rfl, .refl⟩

theorem fillAccumulator_busy {v : Value} {w : Width} {u : Unit}
    (h : fillAccumulator v w a = .ok u b) :
    b.busy = a.busy ∧ b.frames = a.frames ∧ a.Extends b := by
  rcases fillAccumulator_ok h with ⟨t, n, -, rfl⟩ | ⟨-, -, o, -, rfl⟩ | ⟨-, -, o, -, rfl⟩ <;>
    exact ⟨rfl, rfl, .of_lines _ rfl⟩

theorem wide_transfer {op : WideOp} {w : Width} {lhs rhs v : Value}
    (h : wide op w lhs rhs a = .ok v b) :
    a.Transfer (lhs.held ++ rhs.held) b v.held := by
  obtain ⟨f, staged, c, d, o, dst, e, hstage, hfill, -, he, hdst, rfl, rfl⟩ := wide_ok h
  obtain ⟨hfresh, hstaged, hframes, hlines⟩ := stage_busy hstage
  obtain ⟨hfill, hframes', hlines'⟩ := fillAccumulator_busy hfill
  have hbefore : ∀ q, q ∈ e.busy ↔ q ∈ a.busy ∧ q ∉ lhs.held ++ rhs.held := by
    intro q
    simp only [he, mem_busy_release, busy_extend, hfill, hstaged, mem_busy_occupyAll,
      mem_blocked, List.mem_append] at hfresh ⊢
    have hq := hfresh q
    grind
  obtain ⟨hpool, hfree⟩ := firstFree?_eq_some hdst
  rw [hbefore] at hfree
  refine ⟨by simp [Value.held], fun q hq ha => ?_, fun q hq => ?_, fun q => ?_, ?_, ?_⟩
  · obtain rfl : q = dst := by simpa [Value.held] using hq
    exact Classical.byContradiction fun hu => hfree ⟨ha, hu⟩
  · obtain rfl : q = dst := by simpa [Value.held] using hq
    exact .inl hpool
  · rw [busy_extend, mem_busy_occupy, hbefore]
    simp [Value.held]
  · simp [he, hframes', hframes]
  · have hbegin : a.Extends ((a.extend ((saved [.rax, .rdx] a).map .push)).occupyAll
        (blocked [.rax, .rdx] a)) := .of_lines ((saved [.rax, .rdx] a).map .push) (by simp)
    have hend : d.Extends ((e.occupy dst).extend [.mov (.reg dst w) (.reg .rax w)]) :=
      .of_lines (accumulateCode op w o ++ (saved [.rax, .rdx] a).reverse.map .pop ++
        [.mov (.reg dst w) (.reg .rax w)]) (by simp [he, Array.append_assoc])
    exact hbegin.trans (hlines.trans (hlines'.trans hend))

theorem operation_transfer {op : BinaryOp} {lhs rhs v : Value}
    (h : operation op lhs rhs a = .ok v b) (hown : a.Owns (lhs.held ++ rhs.held)) :
    a.Transfer (lhs.held ++ rhs.held) b v.held := by
  obtain ⟨w, -, -, h⟩ := operation_ok h
  cases op with
  | add | sub => exact additive_transfer h hown
  | shl | shr => exact shift_transfer h hown
  | mul | div | mod => exact wide_transfer h

theorem operate_transfer {op : BinaryOp} {lhs rhs v : Value}
    (h : Compile.operate op lhs rhs a = .ok v b) (hown : a.Owns (lhs.held ++ rhs.held)) :
    a.Transfer (lhs.held ++ rhs.held) b v.held := by
  unfold Compile.operate at h
  split at h
  · exact operation_transfer h hown
  · simp only [bind_eq_ok, Prod.exists] at h
    obtain ⟨l, r, c, hbalance, h⟩ := h
    have hboth := balance_transfer hbalance hown
    exact hboth.trans (operation_transfer h hboth.owns)

theorem reference_transfer {u v : Value} (h : reference (.value u) a = .ok v b)
    (hown : a.Owns u.held) : a.Transfer u.held b v.held := by
  obtain ⟨t, m, hs, r, hu, hr, rfl, rfl⟩ := reference_ok h
  cases hu
  exact .fresh hr hown _

theorem elementBase_transfer {v : Value} {r : Register} (h : elementBase v a = .ok r b)
    (hown : a.Owns v.held) : a.Transfer v.held b [r] := by
  rcases elementBase_ok h with ⟨t, rfl, rfl⟩ | ⟨t, m, hs, rfl, hr, rfl⟩
  · exact .refl hown
  · exact .fresh hr hown _

theorem extendIndex_transfer {v : Value} {r : Register} (h : extendIndex v a = .ok r b)
    (hown : a.Owns v.held) : a.Transfer v.held b [r] := by
  obtain ⟨w, -, ⟨t, rfl, rfl⟩ | ⟨-, o, -, hr, rfl⟩⟩ := extendIndex_ok h
  · exact (Transfer.refl hown).extend _
  · exact .fresh hr hown _

theorem scaledElement_transfer {t : Ty} {base index : Register} {v : Value}
    (h : scaledElement t base index a = .ok v b) (hown : a.Owns [index, base]) :
    a.Transfer [index, base] b v.held := by
  rcases scaledElement_ok h with ⟨w, -, rfl, rfl⟩ | ⟨-, rfl, rfl⟩
  · exact .refl hown
  · exact (Transfer.refl hown).extend _

theorem constantElement_transfer {t : Ty} {base : Register} {i : Int} {v : Value}
    (h : constantElement t base i a = .ok v b) (hown : a.Owns [base]) :
    a.Transfer [base] b v.held := by
  rcases constantElement_ok h with ⟨-, rfl, rfl⟩ | ⟨-, r, hr, h⟩
  · exact .refl hown
  · have hboth := (Transfer.acquired hr
      [.mov (.reg r .qword) (.imm (Word.signed 8 i))]).frame hown
    exact hboth.trans (scaledElement_transfer h hboth.owns)

theorem elementAt_transfer {t : Ty} {base : Register} {i v : Value}
    (h : elementAt t base (.value i) a = .ok v b) (hown : a.Owns (base :: i.held)) :
    a.Transfer (base :: i.held) b v.held := by
  rcases elementAt_ok h with ⟨s, n, w, hi, -, hat⟩ | ⟨x, r, c, hi, -, hr, hat⟩
  · cases hi
    exact constantElement_transfer hat hown
  · cases hi
    have hown' : a.Owns (i.held ++ [base]) :=
      ⟨List.perm_append_comm.nodup_iff.1 hown.nodup, fun q hq => hown.busy q (by grind)⟩
    have hindex := (extendIndex_transfer hr hown'.left).frame hown'
    refine (hindex.trans (scaledElement_transfer hat hindex.owns)).congr (fun q => ?_)
      (.refl _) (fun q => Iff.rfl) rfl .refl
    simp [or_comm]

theorem element_transfer {array index v : Value}
    (h : element (.value array) (.value index) a = .ok v b)
    (hown : a.Owns (array.held ++ index.held)) :
    a.Transfer (array.held ++ index.held) b v.held := by
  obtain ⟨x, t, base, c, hx, -, -, hbase, h⟩ := element_ok h
  cases hx
  have hboth := (elementBase_transfer hbase hown.left).frame hown
  exact hboth.trans (elementAt_transfer h hboth.owns)

theorem store_busy {w : Width} {m : Address} {v : Value} {u : Unit}
    (h : store w m v a = .ok u b) :
    (∀ r, r ∈ b.busy ↔ r ∈ a.busy) ∧ b.frames = a.frames ∧ a.Extends b := by
  rcases store_ok h with ⟨t, m', hs, tmp, -, htmp, rfl⟩ | ⟨-, o, tmp, -, htmp, rfl⟩ |
    ⟨-, -, o, -, rfl⟩
  · exact ⟨fun r => mem_busy_scratch htmp _, by simp, .occupied tmp _ [tmp]⟩
  · exact ⟨fun r => mem_busy_scratch htmp _, by simp, .occupied tmp _ [tmp]⟩
  · exact ⟨fun r => Iff.rfl, rfl, .of_lines _ rfl⟩

theorem assignment_transfer {target source v : Value}
    (h : assignment (.value target) (.value source) a = .ok v b)
    (hown : a.Owns (target.held ++ source.held)) :
    a.Transfer (target.held ++ source.held) b v.held := by
  obtain ⟨t, m, hs, x, w, c, ht, hx, rfl, -, hstore, rfl⟩ := assignment_ok h
  cases ht
  cases hx
  obtain ⟨hbusy, hframes, hlines⟩ := store_busy hstore
  refine (Transfer.release hown).congr (fun q => Iff.rfl) (.refl _) (fun q => ?_) hframes hlines
  rw [mem_busy_release, mem_busy_release, hbusy]

theorem perform_transfer {p : Procedure} {args : List Item} {i : Item}
    (h : perform p args a = .ok i b) : a.Transfer [] b i.held := by
  rcases perform_ok h with ⟨-, rfl, hrun⟩ | ⟨arg, rest, t, v, -, -, -, rfl, hrun⟩
  · obtain rfl := writeNewline_ok hrun
    refine Transfer.nothing.congr (fun q => Iff.rfl) (.refl _) (fun q => ?_)
      (frames_occupyAll _) (.of_lines ((saved newlineRegisters a).map .push ++ newlineCode ++
        (saved newlineRegisters a).reverse.map .pop) (by simp [Array.append_assoc]))
    rw [busy_extend, mem_busy_reserved]
  · obtain ⟨x, r, o, -, hr, -, rfl, rfl⟩ := digitValue_ok hrun
    exact .acquired hr _

theorem call_transfer {p : Procedure} {args : List Item} {i : Item}
    (h : call p args a = .ok i b) (hown : a.Owns (args.flatMap Item.held)) :
    a.Transfer (args.flatMap Item.held) b i.held := by
  obtain ⟨c, hperform, rfl⟩ := call_ok h
  have hboth := (perform_transfer hperform).frame hown
  exact hboth.trans (.release hboth.owns)

/-! ## Addresses -/

theorem variableValue_closed {x : Variable} {v : Value} (h : variableValue x a = .ok v b) :
    v.held = [] ∧ v.Closed := by
  obtain ⟨-, ⟨label, n, -, rfl⟩ | ⟨offset, n, -, rfl⟩⟩ := variableValue_ok h
  · exact ⟨rfl, by simp [Value.Closed, Address.registers]⟩
  · exact ⟨rfl, by simp [Value.Closed, Address.registers]⟩

theorem convert_closed {u v : Value} {t : Ty} (h : convert u t a = .ok v b) (hu : u.Closed) :
    v.Closed := by
  rcases convert_ok h with ⟨-, rfl, -⟩ | ⟨-, h⟩
  · exact hu.withType t
  · rcases resize_ok h with ⟨_, _, -, rfl, -⟩ | ⟨_, _, _, _, _, -, rfl, -⟩ <;> trivial

theorem widen_closed {u v : Value} {t : Ty} (h : widen u t a = .ok v b) (hu : u.Closed) :
    v.Closed := by
  rcases widen_ok h with ⟨-, rfl, -⟩ | ⟨-, h⟩
  · exact hu.withType t
  · exact convert_closed h hu

theorem balance_closed {lhs rhs l r : Value} (h : balance lhs rhs a = .ok (l, r) b)
    (hl : lhs.Closed) (hr : rhs.Closed) : l.Closed ∧ r.Closed := by
  rcases balance_ok h with ⟨-, rfl, h⟩ | ⟨-, rfl, h⟩ | ⟨-, rfl, rfl, -⟩
  · exact ⟨hl, widen_closed h hr⟩
  · exact ⟨widen_closed h hl, hr⟩
  · exact ⟨hl, hr⟩

theorem operation_eq_reg {op : BinaryOp} {lhs rhs v : Value}
    (h : operation op lhs rhs a = .ok v b) : ∃ r, v = .reg lhs.type r := by
  obtain ⟨w, -, -, h⟩ := operation_ok h
  cases op with
  | add | sub =>
      obtain ⟨dst, _, _, _, rfl, -⟩ := additive_ok h
      exact ⟨dst, rfl⟩
  | shl | shr =>
      obtain ⟨dst, _, _, ⟨_, _, _, rfl, _⟩ | ⟨_, r, rfl, _⟩⟩ := shift_ok h
      · exact ⟨dst, rfl⟩
      · exact ⟨r, rfl⟩
  | mul | div | mod =>
      obtain ⟨_, _, _, _, _, dst, _, _, _, _, _, _, rfl, _⟩ := wide_ok h
      exact ⟨dst, rfl⟩

theorem operate_eq_reg {op : BinaryOp} {lhs rhs v : Value}
    (h : Compile.operate op lhs rhs a = .ok v b) : ∃ t r, v = .reg t r := by
  unfold Compile.operate at h
  split at h
  · obtain ⟨r, rfl⟩ := operation_eq_reg h
    exact ⟨_, r, rfl⟩
  · simp only [bind_eq_ok] at h
    obtain ⟨_, _, -, h⟩ := h
    obtain ⟨r, rfl⟩ := operation_eq_reg h
    exact ⟨_, r, rfl⟩

theorem scaledElement_eq_mem {t : Ty} {base index : Register} {v : Value}
    (h : scaledElement t base index a = .ok v b) :
    v.Closed ∧ ∃ m hs, v = .mem t m hs := by
  rcases scaledElement_ok h with ⟨_, -, -, rfl⟩ | ⟨-, -, rfl⟩
  · exact ⟨by simp [Value.Closed, Address.registers], _, _, rfl⟩
  · exact ⟨by simp [Value.Closed, Address.registers], _, _, rfl⟩

theorem element_eq_mem {array index : Item} {v : Value} (h : element array index a = .ok v b) :
    v.Closed ∧ ∃ x y t m hs, array = .value x ∧ index = .value y ∧ x.type.element? = some t ∧
      v = .mem t m hs := by
  obtain ⟨x, t, base, _, hx, -, ht, -, hat⟩ := element_ok h
  have hmem : (∃ y, index = .value y) ∧ v.Closed ∧ ∃ m hs, v = .mem t m hs := by
    rcases elementAt_ok hat with ⟨_, _, _, hy, -, hconst⟩ | ⟨_, _, _, hy, -, -, hscaled⟩
    · refine ⟨⟨_, hy⟩, ?_⟩
      rcases constantElement_ok hconst with ⟨-, -, rfl⟩ | ⟨-, _, -, hscaled⟩
      · exact ⟨by simp [Value.Closed, Address.registers], _, _, rfl⟩
      · exact scaledElement_eq_mem hscaled
    · exact ⟨⟨_, hy⟩, scaledElement_eq_mem hscaled⟩
  obtain ⟨⟨y, hy⟩, hclosed, m, hs, hv⟩ := hmem
  exact ⟨hclosed, x, y, t, m, hs, hx, hy, ht, hv⟩

theorem call_eq_reg {p : Procedure} {args : List Item} {i : Item} (h : call p args a = .ok i b) :
    i = .void ∨ ∃ t r, p.returns = some t ∧ i = .value (.reg t r) := by
  obtain ⟨_, hperform, -⟩ := call_ok h
  rcases perform_ok hperform with ⟨-, rfl, -⟩ | ⟨_, _, t, _, -, -, ht, rfl, hdigit⟩
  · exact .inl rfl
  · obtain ⟨_, r, _, -, -, -, rfl, -⟩ := digitValue_ok hdigit
    exact .inr ⟨t, r, ht, rfl⟩

end Emit

end Tern
