import Tern.Proofs.Emit.Encoding
import Tern.Proofs.Machine.Access
import Tern.Proofs.Machine.Operation

/-!
# What an operation leaves alone

Which registers an instruction may change can be read off it.  So can what the code of an
operation leaves alone: the registers in use that its operands do not hold, the two registers
that describe the stack, and all memory but the few bytes right below the stack pointer, whatever
the operands and the state of the machine are.
-/

namespace Tern

namespace Instr

/-- The registers that an instruction may change, the stack pointer apart. -/
def writes : Instr → List Register
  | mov (.reg r _) _ | movzx (.reg r _) _ | lea r _ | combine _ (.reg r _) _ | neg (.reg r _)
  | shift _ (.reg r _) _ | imul r _ => [r]
  | mul _ | div _ => [.rax, .rdx]
  | _ => []

/-- The instruction changes nothing but registers, and not the stack pointer implicitly. -/
def isQuiet : Instr → Bool
  | mov (.mem ..) _ | push _ | pop _ | syscall => false
  | _ => true

/-- The instruction changes registers only, and none that `keep` names. -/
def Spares (keep : Register → Prop) (i : Instr) : Prop :=
  i.isQuiet = true ∧ ∀ r ∈ i.writes, ¬ keep r

end Instr

namespace Machine

variable {p : Platform} {s t : State} {i : Instr} {code : List Instr} {rs : List Register}

theorem touches_setIfSome {r : Register} {w : Width} {n : Option Nat}
    (h : s.setIfSome r w n = .ok t) : Touches [r] s t := by
  cases n with
  | none => cases h
  | some n =>
      cases h
      exact .set (List.mem_singleton_self r)

theorem touches_divide {w : Width} {n : Nat} (h : s.divide w n = .ok t) :
    Touches [.rax, .rdx] s t := by
  unfold State.divide at h
  split at h
  · cases h
  · split at h
    · cases h
      exact .set (by simp)
    · cases h
      exact (Touches.set (by simp)).trans (.set (by simp))

theorem eq_of_guarded {cond : Prop} [Decidable cond] {u : State}
    (h : (if cond then .ok u else s.stopped .undefined) = Except.ok t) : u = t := by
  split at h
  · exact Except.ok.inj h
  · cases h

theorem step_touches (hquiet : i.isQuiet = true) (h : step p s i = .ok t) :
    Touches i.writes s t := by
  have hset (r : Register) (w : Width) (n : Nat) : Touches [r] s (s.set r w n) :=
    .set (List.mem_singleton_self r)
  cases i with
  | mov dst src =>
      cases dst with
      | reg r w => exact touches_setIfSome h
      | mem size m => cases hquiet
      | _ => cases h
  | movzx dst src =>
      cases dst with
      | reg r w =>
          cases src with
          | reg q w' => exact eq_of_guarded h ▸ hset r w _
          | mem size m =>
              cases size with
              | some w' => exact eq_of_guarded h ▸ hset r w _
              | none => cases h
          | _ => cases h
      | _ => cases h
  | lea r m =>
      cases h
      exact hset r _ _
  | combine op dst src =>
      cases dst with
      | reg r w => exact touches_setIfSome h
      | _ => cases h
  | neg dst =>
      cases dst with
      | reg r w =>
          cases h
          exact hset r w _
      | _ => cases h
  | shift dir dst count =>
      cases dst with
      | reg r w =>
          cases count with
          | imm n => exact eq_of_guarded h ▸ hset r w _
          | reg q w' =>
              cases q <;> cases w' <;> cases h
              exact hset r w _
          | _ => cases h
      | _ => cases h
  | imul r factor => exact eq_of_guarded h ▸ hset r _ _
  | mul src =>
      cases src with
      | reg r w =>
          cases h
          exact touches_multiply
      | mem size m =>
          cases size with
          | some w =>
              cases h
              exact touches_multiply
          | none => cases h
      | _ => cases h
  | div src =>
      cases src with
      | reg r w => exact touches_divide h
      | mem size m =>
          cases size with
          | some w => exact touches_divide h
          | none => cases h
      | _ => cases h
  | push r | pop r | syscall => cases hquiet

/-- An instruction that stops has changed nothing. -/
theorem state_of_stopped {halt : Halt} (h : step p s i = .error halt) : halt.state = s := by
  have hset {r : Register} {w : Width} {n : Option Nat} :
      s.setIfSome r w n = .error halt → halt.state = s := by
    intro h
    cases n with
    | none =>
        cases h
        rfl
    | some n => cases h
  have hguarded {cond : Prop} [Decidable cond] {u : State} :
      (if cond then .ok u else s.stopped .undefined) = Except.error halt → halt.state = s := by
    intro h
    split at h
    · cases h
    · cases h
      rfl
  have hdivide {w : Width} {n : Nat} : s.divide w n = .error halt → halt.state = s := by
    intro h
    unfold State.divide at h
    split at h
    · cases h
      rfl
    · split at h <;> cases h
  have hcall : s.systemCall p = .error halt → halt.state = s := by
    intro h
    unfold State.systemCall at h
    split at h
    · cases h
    · split at h <;> cases h <;> rfl
  unfold step at h
  split at h
  all_goals first
    | exact hset h
    | exact hguarded h
    | exact hdivide h
    | exact hcall h
    | (cases h; rfl)
    | cases h

/-- The state in which execution ends, whether at the end of the code or before it. -/
def lastState : Except Halt State → State
  | .ok t => t
  | .error halt => halt.state

theorem exec_touches (h : ∀ i ∈ code, i.isQuiet = true ∧ ∀ r ∈ i.writes, r ∈ rs) :
    Touches rs s (lastState (exec p code s)) := by
  induction code generalizing s with
  | nil => exact .refl
  | cons i code ih =>
      obtain ⟨⟨hquiet, hwrites⟩, hcode⟩ := List.forall_mem_cons.1 h
      cases hstep : step p s i with
      | ok t =>
          rw [exec_cons_ok hstep]
          exact ((step_touches hquiet hstep).mono hwrites).trans (ih hcode)
      | error halt =>
          have hexec : exec p (i :: code) s = .error halt := by
            rw [exec, hstep]
            rfl
          rw [hexec, lastState, state_of_stopped hstep]
          exact .refl

/-! ## Code that spares registers -/

/-- The code from `a` to `b` makes no system call and leaves alone the registers that `keep`
names and the memory above the stack pointer.  Where it stops before its end, it has left that
memory alone. -/
def Spares (p : Platform) (keep : Register → Prop) (a b : Assembly) : Prop :=
  ∃ code, b.lines = a.lines ++ (code.map Line.instr).toArray ∧ .syscall ∉ code ∧ ∀ s,
    (∀ t, exec p code s = .ok t → Agrees keep (s.regs .rsp) s t) ∧
    ∀ halt, exec p code s = .error halt → Agrees (fun _ => False) (s.regs .rsp) s halt.state

namespace Spares

variable {keep : Register → Prop} {a b c : Assembly}

theorem ofWrites (h : a.Writes (Instr.Spares keep) b) : Spares p keep a b := by
  obtain ⟨code, hlines, hcode⟩ := h
  have hwrites : ∀ i ∈ code, i.isQuiet = true ∧ ∀ r ∈ i.writes, r ∈ code.flatMap Instr.writes :=
    fun i hi => ⟨(hcode i hi).1, fun r hr => List.mem_flatMap.2 ⟨i, hi, hr⟩⟩
  have hkeep : ∀ r, keep r → r ∉ code.flatMap Instr.writes := by
    intro r hr hmem
    obtain ⟨i, hi, hr'⟩ := List.mem_flatMap.1 hmem
    exact (hcode i hi).2 r hr' hr
  refine ⟨code, hlines, fun hcall => absurd (hcode _ hcall).1 nofun, fun s => ?_⟩
  have htouches := exec_touches (p := p) (s := s) hwrites
  refine ⟨fun t ht => ?_, fun halt hhalt => ?_⟩
  · rw [ht] at htouches
    exact htouches.agrees hkeep
  · rw [hhalt] at htouches
    exact htouches.agrees fun _ h => h.elim

theorem trans (h : Spares p keep a b) (h' : Spares p keep b c) (hrsp : keep .rsp) :
    Spares p keep a c := by
  obtain ⟨code, hlines, hcall, hcode⟩ := h
  obtain ⟨more, hlines', hcall', hmore⟩ := h'
  refine ⟨code ++ more, by simp [hlines, hlines', Array.append_assoc], by simp [hcall, hcall'],
    fun s => ?_⟩
  cases hexec : exec p code s with
  | error halt =>
      rw [exec_append_error hexec]
      refine ⟨nofun, fun halt' heq => ?_⟩
      cases heq
      exact (hcode s).2 halt hexec
  | ok t =>
      have hfirst := (hcode s).1 t hexec
      have hrest := hmore t
      rw [hfirst.regs .rsp hrsp] at hrest
      rw [exec_append_ok hexec]
      exact ⟨fun u hu => hfirst.trans (hrest.1 u hu),
        fun halt hhalt => (hfirst.mono fun _ h => h.elim).trans (hrest.2 halt hhalt)⟩

/-- Code between saving and restoring registers may change these as well. -/
theorem saved {rs qs : List Register} {code : List Instr} (hrsp : .rsp ∉ rs)
    (hlen : 8 * rs.length ≤ stackRoom)
    (hlines : b.lines = a.lines ++ ((rs.map Instr.push ++ code ++ rs.reverse.map Instr.pop).map
      Line.instr).toArray)
    (hcode : ∀ i ∈ code, i.isQuiet = true ∧ ∀ r ∈ i.writes, r ∈ qs)
    (hqs : .rsp ∉ qs) (hkeep : ∀ r, keep r → r ∈ rs ∨ r ∉ qs) : Spares p keep a b := by
  have hcall : .syscall ∉ code := fun hcall => absurd (hcode _ hcall).1 nofun
  refine ⟨_, hlines, by simp [hcall], fun s => ?_⟩
  have htouches := exec_touches (p := p) (s := s.pushAll rs) hcode
  cases hexec : exec p code (s.pushAll rs) with
  | ok t =>
      rw [hexec] at htouches
      have hfull : exec p (rs.map .push ++ code ++ rs.reverse.map .pop) s =
          .ok (t.restored rs s) := by
        refine exec_saved hrsp ?_ hexec htouches.mem (htouches.regs _ hqs)
        unfold stackRoom at hlen
        omega
      rw [hfull]
      refine ⟨fun u hu => ?_, nofun⟩
      cases hu
      exact htouches.restored rfl hlen hkeep
  | error halt =>
      rw [hexec] at htouches
      have hbefore : exec p (rs.map .push ++ code) s = .error halt := by
        rw [exec_append_ok exec_push, hexec]
      rw [exec_append_error hbefore]
      refine ⟨nofun, fun halt' heq => ?_⟩
      cases heq
      have hpush := agrees_pushAll rs (s := s) rfl hlen
      exact (hpush.mono fun _ h => h.elim).trans (htouches.agrees fun _ h => h.elim)

end Spares

end Machine

/-- The registers that `keep` names are in use, the two that describe the stack apart. -/
def Assembly.Guards (a : Assembly) (keep : Register → Prop) : Prop :=
  ∀ r, keep r → r ∈ a.busy ∨ r = .rsp ∨ r = .rbp

namespace Assembly.Guards

variable {keep : Register → Prop} {a : Assembly} {r : Register} {rs : List Register}

theorem occupy (h : a.Guards keep) : (a.occupy r).Guards keep :=
  fun q hq => (h q hq).imp_left fun hq => by simp [hq]

theorem occupyAll (h : a.Guards keep) : (a.occupyAll rs).Guards keep :=
  fun q hq => (h q hq).imp_left fun hq => by simp [hq]

theorem extend (h : a.Guards keep) (code : List Instr) : (a.extend code).Guards keep := h

theorem release (h : a.Guards keep) (hrs : ∀ r ∈ rs, ¬ keep r) : (a.release rs).Guards keep :=
  fun q hq => (h q hq).imp_left fun hbusy =>
    (mem_busy_release rs).2 ⟨hbusy, fun hmem => hrs q hmem hq⟩

theorem free (h : a.Guards keep) (hr : a.firstFree? = some r) : ¬ keep r := by
  obtain ⟨hpool, hfree⟩ := firstFree?_eq_some hr
  intro hkeep
  rcases h r hkeep with hbusy | rfl | rfl
  · exact hfree hbusy
  · revert hpool
    decide
  · revert hpool
    decide

end Assembly.Guards

/-! ## Arithmetic -/

namespace Emit

open Assembly Machine

variable {keep : Register → Prop} {a b : Assembly} {v : Value} {w : Width} {r dst : Register}
  {p : Platform}

theorem spares_write {i : Instr} (hi : i.isQuiet = true) (hwrites : i.writes = [r])
    (hr : ¬ keep r) : i.Spares keep :=
  ⟨hi, hwrites ▸ List.forall_mem_singleton.2 hr⟩

theorem negate_spares {i : Item} (h : negate i a = .ok v b) (hg : a.Guards keep) :
    a.Writes (Instr.Spares keep) b := by
  obtain ⟨u, r, w, o, -, -, hr, -, -, -, rfl⟩ := negate_ok h
  refine (Writes.refl.occupy.extend (forall_pair ?_ ?_)).release
  · exact spares_write rfl rfl (hg.free hr)
  · exact spares_write rfl rfl (hg.free hr)

theorem zeroExtend_spares {source target : Ty} {u : Unit}
    (h : zeroExtend r source target a = .ok u b) (hr : ¬ keep r) :
    a.Writes (Instr.Spares keep) b := by
  rcases zeroExtend_ok h with ⟨-, rfl⟩ | ⟨w, -, -, rfl⟩
  · exact Writes.refl.extend (List.forall_mem_singleton.2 (spares_write rfl rfl hr))
  · exact Writes.refl.extend (List.forall_mem_singleton.2 (spares_write rfl rfl hr))

theorem load_spares {source target : Ty} {m : Address} {u : Unit}
    (h : load r source target m a = .ok u b) (hr : ¬ keep r) :
    a.Writes (Instr.Spares keep) b := by
  rcases load_ok h with ⟨w, w', -, -, -, rfl⟩ | ⟨w, -, -, rfl⟩
  · exact Writes.refl.extend (forall_pair (spares_write rfl rfl hr) (spares_write rfl rfl hr))
  · exact Writes.refl.extend (List.forall_mem_singleton.2 (spares_write rfl rfl hr))

theorem convert_spares {u : Value} {t : Ty} (h : convert u t a = .ok v b) (hg : a.Guards keep)
    (hu : ∀ r ∈ u.held, ¬ keep r) : a.Writes (Instr.Spares keep) b := by
  rcases convert_ok h with ⟨-, -, rfl⟩ | ⟨-, h⟩
  · exact .refl
  · rcases resize_ok h with ⟨s, r, rfl, -, ⟨-, hextend⟩ | ⟨-, rfl⟩⟩ |
      ⟨s, m, hs, r, c, -, -, hr, hload, rfl⟩
    · exact zeroExtend_spares hextend (hu r (List.mem_singleton_self r))
    · exact .refl
    · exact (Writes.refl.occupy.trans (load_spares hload (hg.free hr))).release

theorem widen_spares {u : Value} {t : Ty} (h : widen u t a = .ok v b) (hg : a.Guards keep)
    (hu : ∀ r ∈ u.held, ¬ keep r) : a.Writes (Instr.Spares keep) b := by
  rcases widen_ok h with ⟨-, -, rfl⟩ | ⟨-, h⟩
  · exact .refl
  · exact convert_spares h hg hu

theorem balance_spares {lhs rhs l r : Value} (h : balance lhs rhs a = .ok (l, r) b)
    (hg : a.Guards keep) (hl : ∀ r ∈ lhs.held, ¬ keep r) (hr : ∀ r ∈ rhs.held, ¬ keep r) :
    a.Writes (Instr.Spares keep) b := by
  rcases balance_ok h with ⟨-, -, h⟩ | ⟨-, -, h⟩ | ⟨-, -, -, rfl⟩
  · exact widen_spares h hg hr
  · exact widen_spares h hg hl
  · exact .refl

theorem toRegister_spares (h : toRegister v w a = .ok dst b) (hg : a.Guards keep)
    (hv : ∀ r ∈ v.held, ¬ keep r) :
    a.Writes (Instr.Spares keep) b ∧ b.Guards keep ∧ ¬ keep dst := by
  rcases toRegister_ok h with ⟨t, rfl, rfl⟩ | ⟨o, -, hr, rfl⟩
  · exact ⟨.refl, hg, hv dst (List.mem_singleton_self dst)⟩
  · have hmove := List.forall_mem_singleton.2
      (spares_write (i := .mov (.reg dst w) o) rfl rfl (hg.free hr))
    exact ⟨(Writes.refl.occupy.extend hmove).release, (hg.occupy.extend _).release hv,
      hg.free hr⟩

theorem additive_spares {op : Combine} {lhs rhs : Value} (h : additive op w lhs rhs a = .ok v b)
    (hg : a.Guards keep) (hl : ∀ r ∈ lhs.held, ¬ keep r) : a.Writes (Instr.Spares keep) b := by
  obtain ⟨dst, c, o, hdst, -, -, ⟨tmp, -, htmp, rfl⟩ | ⟨-, rfl⟩⟩ := additive_ok h
  · obtain ⟨hwrites, hg, hkeep⟩ := toRegister_spares hdst hg hl
    refine (hwrites.occupy.extend (forall_pair ?_ ?_)).release.release
    · exact spares_write rfl rfl (hg.free htmp)
    · exact spares_write rfl rfl hkeep
  · obtain ⟨hwrites, -, hkeep⟩ := toRegister_spares hdst hg hl
    exact (hwrites.extend (List.forall_mem_singleton.2 (spares_write rfl rfl hkeep))).release

theorem vacateCount_spares (h : vacateCount r a = .ok dst b) (hg : a.Guards keep)
    (hr : ¬ keep r) : a.Writes (Instr.Spares keep) b ∧ b.Guards keep ∧ ¬ keep dst := by
  rcases vacateCount_ok h with ⟨-, rfl, rfl⟩ | ⟨rfl, hdst, rfl⟩
  · exact ⟨.refl, hg, hr⟩
  · have hmove := List.forall_mem_singleton.2 (spares_write
      (i := .mov (.reg dst .qword) (.reg .rcx .qword)) rfl rfl (hg.free hdst))
    exact ⟨(Writes.refl.occupy.extend hmove).release,
      (hg.occupy.extend _).release (List.forall_mem_singleton.2 hr), hg.free hdst⟩

theorem saved_spares {rs qs : List Register} {code : List Instr} (hg : a.Guards keep)
    (hrs : ∀ r ∈ rs, r ≠ .rsp ∧ r ≠ .rbp) (hlen : 8 * rs.length ≤ stackRoom)
    (hlines : b.lines = a.lines ++ (((saved rs a).map Instr.push ++ code ++
      (saved rs a).reverse.map Instr.pop).map Line.instr).toArray)
    (hcode : ∀ i ∈ code, i.isQuiet = true ∧ ∀ r ∈ i.writes, r ∈ rs ++ qs)
    (hqs : ∀ r ∈ qs, ¬ keep r) (hrsp : keep .rsp) : Spares p keep a b := by
  have hnotin : .rsp ∉ rs := fun h => (hrs _ h).1 rfl
  refine .saved (by simp [hnotin]) (saved_room hlen) hlines hcode ?_ fun r hr => ?_
  · rw [List.mem_append, not_or]
    exact ⟨hnotin, fun h => hqs _ h hrsp⟩
  · by_cases hmem : r ∈ rs
    · obtain ⟨hne, hne'⟩ := hrs r hmem
      have hbusy : r ∈ a.busy := (hg r hr).resolve_right (not_or.2 ⟨hne, hne'⟩)
      exact .inl (mem_saved.2 ⟨hmem, hbusy⟩)
    · rw [List.mem_append, not_or]
      exact .inr ⟨hmem, fun h => hqs r h hr⟩

theorem shift_spares {dir : Direction} {lhs rhs : Value} (h : shift dir w lhs rhs a = .ok v b)
    (hg : a.Guards keep) (hl : ∀ r ∈ lhs.held, ¬ keep r) (hrsp : keep .rsp) :
    Spares p keep a b := by
  obtain ⟨dst, c, hdst, ⟨t, n, -, -, rfl⟩ | ⟨-, r, -, h⟩⟩ := shift_ok h
  · obtain ⟨hwrites, -, hkeep⟩ := toRegister_spares hdst hg hl
    exact .ofWrites (hwrites.extend (List.forall_mem_singleton.2 (spares_write rfl rfl hkeep)))
  · obtain ⟨hwrites, hg, hkeep⟩ := toRegister_spares hdst hg hl
    obtain ⟨d, o, hmoved, -, rfl⟩ := shiftByCount_ok h
    obtain ⟨hwrites', hg, hkeep⟩ := vacateCount_spares hmoved hg hkeep
    refine (Spares.ofWrites (hwrites.trans hwrites')).trans ?_ hrsp
    have hcode : ∀ i ∈ [Instr.mov (.reg .rcx .byte) o, .shift dir (.reg r w) (.reg .rcx .byte)],
        i.isQuiet = true ∧ ∀ q ∈ i.writes, q ∈ [.rcx] ++ [r] :=
      forall_pair ⟨rfl, by simp [Instr.writes]⟩ ⟨rfl, by simp [Instr.writes]⟩
    refine saved_spares hg (by simp) (by decide) ?_ hcode (List.forall_mem_singleton.2 hkeep) hrsp
    simp only [lines_release, lines_extend, lines_occupyAll, List.map_append,
      List.append_toArray, Array.append_assoc]

/-- The code changes no register but `rs`. -/
abbrev Confined (rs : List Register) (i : Instr) : Prop :=
  i.isQuiet = true ∧ ∀ r ∈ i.writes, r ∈ rs

theorem stage_confined {f : Value} {staged : List Register} (h : stage v w a = .ok (f, staged) b)
    (hg : a.Guards keep) :
    a.Writes (Confined ([.rax, .rdx] ++ staged)) b ∧ b.Guards keep ∧ ∀ r ∈ staged, ¬ keep r := by
  rcases stage_ok h with ⟨-, tmp, o, htmp, -, -, rfl, rfl⟩ | ⟨-, -, -, rfl, rfl⟩
  · have hmove : Confined ([.rax, .rdx] ++ [tmp]) (.mov (.reg tmp w) o) :=
      ⟨rfl, by simp [Instr.writes]⟩
    exact ⟨Writes.refl.occupy.extend (List.forall_mem_singleton.2 hmove), hg.occupy.extend _,
      List.forall_mem_singleton.2 (hg.free htmp)⟩
  · exact ⟨.refl, hg, List.forall_mem_nil _⟩

theorem fillAccumulator_confined {u : Unit} {qs : List Register}
    (h : fillAccumulator v w a = .ok u b) (hg : a.Guards keep) :
    a.Writes (Confined ([.rax, .rdx] ++ qs)) b ∧ b.Guards keep := by
  have hone {i : Instr} (hi : i.isQuiet = true) (hwrites : i.writes = [.rax]) :
      ∀ j ∈ [i], Confined ([.rax, .rdx] ++ qs) j :=
    List.forall_mem_singleton.2 ⟨hi, by simp [hwrites]⟩
  rcases fillAccumulator_ok h with ⟨t, n, -, rfl⟩ | ⟨-, -, o, -, rfl⟩ | ⟨-, -, o, -, rfl⟩
  · exact ⟨Writes.refl.extend (hone rfl rfl), hg.extend _⟩
  · exact ⟨Writes.refl.extend (hone rfl rfl), hg.extend _⟩
  · exact ⟨Writes.refl.extend (hone rfl rfl), hg.extend _⟩

theorem accumulateCode_confined (op : WideOp) (w : Width) (o : Operand) (qs : List Register) :
    ∀ i ∈ accumulateCode op w o, Confined ([.rax, .rdx] ++ qs) i := by
  have hdivide : ∀ i ∈ divideCode w o, Confined ([.rax, .rdx] ++ qs) i := by
    unfold divideCode
    split
    · exact List.forall_mem_singleton.2 ⟨rfl, by simp [Instr.writes]⟩
    · exact forall_pair ⟨rfl, by simp [Instr.writes]⟩ ⟨rfl, by simp [Instr.writes]⟩
  have hremainder : Confined ([.rax, .rdx] ++ qs) (remainderCode w) := by
    unfold remainderCode
    split <;> exact ⟨rfl, by simp [Instr.writes]⟩
  cases op with
  | product => exact List.forall_mem_singleton.2 ⟨rfl, by simp [Instr.writes]⟩
  | quotient => exact hdivide
  | remainder => exact List.forall_mem_append.2 ⟨hdivide, List.forall_mem_singleton.2 hremainder⟩

theorem wide_spares {op : WideOp} {lhs rhs : Value} (h : wide op w lhs rhs a = .ok v b)
    (hg : a.Guards keep) (hl : ∀ r ∈ lhs.held, ¬ keep r) (hr : ∀ r ∈ rhs.held, ¬ keep r)
    (hrsp : keep .rsp) : Spares p keep a b := by
  obtain ⟨f, staged, c, d, o, dst, e, hstage, hfill, -, rfl, hdst, -, rfl⟩ := wide_ok h
  have hrs : ∀ r ∈ [Register.rax, .rdx], r ≠ .rsp ∧ r ≠ .rbp := by decide
  obtain ⟨hwrites, hg', hstaged⟩ := stage_confined hstage (hg.extend _).occupyAll
  obtain ⟨hwrites', hg'⟩ := fillAccumulator_confined hfill hg'
  obtain ⟨code, hlines, hcode⟩ :=
    (hwrites.trans hwrites').extend (accumulateCode_confined op w o staged)
  -- What was blocked was not in use, so it need not be kept.
  have hblocked : ∀ r ∈ blocked [.rax, .rdx] a, ¬ keep r := by
    intro r hmem hkeep
    obtain ⟨hmem, hfree⟩ := mem_blocked.1 hmem
    obtain ⟨hne, hne'⟩ := hrs r hmem
    exact hfree ((hg r hkeep).resolve_right (not_or.2 ⟨hne, hne'⟩))
  have hfree : ¬ keep dst :=
    ((((((hg'.extend _).release hblocked).extend _).release hl).release hr).release hstaged).free
      hdst
  have hsaved : Spares p keep a ((d.extend (accumulateCode op w o)).extend
      ((saved [.rax, .rdx] a).reverse.map .pop)) := by
    refine saved_spares hg hrs (by decide) ?_ hcode hstaged hrsp
    rw [lines_extend, hlines]
    simp [Array.append_assoc]
  refine hsaved.trans (.ofWrites ?_) hrsp
  exact ⟨[.mov (.reg dst w) (.reg .rax w)], by simp,
    List.forall_mem_singleton.2 (spares_write rfl rfl hfree)⟩

theorem operation_spares {op : BinaryOp} {lhs rhs : Value} (h : operation op lhs rhs a = .ok v b)
    (hg : a.Guards keep) (hl : ∀ r ∈ lhs.held, ¬ keep r) (hr : ∀ r ∈ rhs.held, ¬ keep r)
    (hrsp : keep .rsp) : Spares p keep a b := by
  obtain ⟨w, -, -, h⟩ := operation_ok h
  cases op with
  | add | sub => exact .ofWrites (additive_spares h hg hl)
  | shl | shr => exact shift_spares h hg hl hrsp
  | mul | div | mod => exact wide_spares h hg hl hr hrsp

/-! ## Access to memory -/

theorem reference_spares {i : Item} (h : reference i a = .ok v b) (hg : a.Guards keep) :
    a.Writes (Instr.Spares keep) b := by
  obtain ⟨t, m, hs, r, -, hr, -, rfl⟩ := reference_ok h
  exact (Writes.refl.occupy.extend
    (List.forall_mem_singleton.2 (spares_write rfl rfl (hg.free hr)))).release

theorem elementBase_spares (h : elementBase v a = .ok r b) (hg : a.Guards keep)
    (hv : ∀ r ∈ v.held, ¬ keep r) :
    a.Writes (Instr.Spares keep) b ∧ b.Guards keep ∧ ¬ keep r := by
  rcases elementBase_ok h with ⟨t, rfl, rfl⟩ | ⟨t, m, hs, rfl, hr, rfl⟩
  · exact ⟨.refl, hg, hv r (List.mem_singleton_self r)⟩
  · refine ⟨(Writes.refl.occupy.extend (List.forall_mem_singleton.2 ?_)).release,
      (hg.occupy.extend _).release hv, hg.free hr⟩
    split
    · exact spares_write rfl rfl (hg.free hr)
    · exact spares_write rfl rfl (hg.free hr)

theorem extendedMove_spares {o : Operand} (hr : ¬ keep r) : (extendedMove r w o).Spares keep := by
  unfold extendedMove
  split <;> exact spares_write rfl rfl hr

theorem extendIndex_spares (h : extendIndex v a = .ok r b) (hg : a.Guards keep)
    (hv : ∀ r ∈ v.held, ¬ keep r) :
    a.Writes (Instr.Spares keep) b ∧ b.Guards keep ∧ ¬ keep r := by
  obtain ⟨w, -, ⟨t, rfl, rfl⟩ | ⟨-, o, -, hr, rfl⟩⟩ := extendIndex_ok h
  · have hr : ¬ keep r := hv r (List.mem_singleton_self r)
    refine ⟨Writes.refl.extend ?_, hg.extend _, hr⟩
    split
    · exact List.forall_mem_nil _
    · exact List.forall_mem_singleton.2 (extendedMove_spares hr)
  · exact ⟨(Writes.refl.occupy.extend
      (List.forall_mem_singleton.2 (extendedMove_spares (hg.free hr)))).release,
      (hg.occupy.extend _).release hv, hg.free hr⟩

theorem scaledElement_spares {e : Ty} {base index : Register}
    (h : scaledElement e base index a = .ok v b) (hindex : ¬ keep index) :
    a.Writes (Instr.Spares keep) b := by
  rcases scaledElement_ok h with ⟨w, -, rfl, -⟩ | ⟨-, rfl, -⟩
  · exact .refl
  · exact Writes.refl.extend (List.forall_mem_singleton.2 (spares_write rfl rfl hindex))

theorem constantElement_spares {e : Ty} {base : Register} {i : Int}
    (h : constantElement e base i a = .ok v b) (hg : a.Guards keep) :
    a.Writes (Instr.Spares keep) b := by
  rcases constantElement_ok h with ⟨-, rfl, -⟩ | ⟨-, r, hr, h⟩
  · exact .refl
  · have hmove := List.forall_mem_singleton.2 (spares_write
      (i := .mov (.reg r .qword) (.imm (Word.signed 8 i))) rfl rfl (hg.free hr))
    exact (Writes.refl.occupy.extend hmove).trans (scaledElement_spares h (hg.free hr))

theorem element_spares {array index : Item} (h : element array index a = .ok v b)
    (hg : a.Guards keep) (harray : ∀ r ∈ array.held, ¬ keep r)
    (hindex : ∀ r ∈ index.held, ¬ keep r) : a.Writes (Instr.Spares keep) b := by
  obtain ⟨x, t, base, c, rfl, -, -, hbase, h⟩ := element_ok h
  obtain ⟨hwrites, hg, -⟩ := elementBase_spares hbase hg harray
  rcases elementAt_ok h with ⟨s, n, w, rfl, -, h⟩ | ⟨y, r, d, rfl, -, hextend, h⟩
  · exact hwrites.trans (constantElement_spares h hg)
  · obtain ⟨hextended, -, hr⟩ := extendIndex_spares hextend hg hindex
    exact (hwrites.trans hextended).trans (scaledElement_spares h hr)

theorem digitValue_spares {i : Item} {t : Ty} (h : digitValue i t a = .ok v b)
    (hg : a.Guards keep) : a.Writes (Instr.Spares keep) b := by
  obtain ⟨x, r, o, -, hr, -, -, rfl⟩ := digitValue_ok h
  exact Writes.refl.occupy.extend
    (forall_pair (spares_write rfl rfl (hg.free hr)) (spares_write rfl rfl (hg.free hr)))

end Emit

end Tern
