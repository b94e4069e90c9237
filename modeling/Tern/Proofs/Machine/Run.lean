import Tern.Proofs.Machine.Value

/-!
# Running what was written

The instructions that an operation has written are executed.  Either they reach a state in
which everything but the operands is as before, or a division stops them.  Saving registers on
the stack around a piece of code restores them whatever the code did to them.
-/

namespace Tern

namespace Assembly

variable {a b : Assembly} {used made more : List Register} {r : Register}

/-- All registers in use are of the pool. -/
def Pooled (a : Assembly) : Prop := ∀ r ∈ a.busy, r ∈ Register.pool

/-- The registers that an operation with operands in `used` must leave alone. -/
def Kept (a : Assembly) (used : List Register) (r : Register) : Prop :=
  (r ∈ a.busy ∧ r ∉ used) ∨ r = .rsp ∨ r = .rbp

theorem kept_rsp : a.Kept used .rsp := .inr (.inl rfl)

theorem kept_rbp : a.Kept used .rbp := .inr (.inr rfl)

theorem Kept.of_subset (h : a.Kept more r) (hsub : ∀ r ∈ used, r ∈ more) : a.Kept used r :=
  h.imp_left fun h => ⟨h.1, fun hr => h.2 (hsub r hr)⟩

theorem not_kept (hpool : r ∈ Register.pool) (hbusy : r ∈ a.busy → r ∈ used) :
    ¬ a.Kept used r := by
  rintro (⟨hr, hu⟩ | rfl | rfl)
  · exact hu (hbusy hr)
  · revert hpool
    decide
  · revert hpool
    decide

theorem not_kept_free (h : a.firstFree? = some r) : ¬ a.Kept used r := by
  obtain ⟨hpool, hfree⟩ := firstFree?_eq_some h
  exact not_kept hpool fun hr => absurd hr hfree

theorem Pooled.not_kept (h : a.Pooled) (hown : a.Owns used) (hr : r ∈ used) :
    ¬ a.Kept used r :=
  Assembly.not_kept (h r (hown.busy r hr)) fun _ => hr

namespace Transfer

theorem pooled (h : a.Transfer used b made) (ha : a.Pooled) (hown : a.Owns used) :
    b.Pooled := by
  intro r hr
  rcases (h.busy r).1 hr with ⟨hr, -⟩ | hr
  · exact ha r hr
  · rcases h.pool r hr with hpool | hu
    · exact hpool
    · exact ha r (hown.busy r hu)

/-- What the first operation keeps is kept by one that takes over its result. -/
theorem kept (h : a.Transfer used b made) (hr : a.Kept used r) : b.Kept made r :=
  hr.imp_left fun hr => ⟨h.keeps hr.1 hr.2, fun hm => hr.2 (h.apart r hm hr.1)⟩

end Transfer

end Assembly

namespace Machine

variable {p : Platform} {sp : Addr} {a b c : Assembly} {s t u : State}
  {used made more : List Register} {r : Register}

/-- The instructions from `a` to `b`, executed from `s`, end with `result`. -/
def Runs (p : Platform) (a : Assembly) (s : State) (b : Assembly)
    (result : Except Halt State) : Prop :=
  ∃ code, b.lines = a.lines ++ (code.map Line.instr).toArray ∧ exec p code s = result

namespace Runs

variable {result : Except Halt State}

theorem refl : Runs p a s a (.ok s) := ⟨[], by simp, rfl⟩

theorem extend {code : List Instr} (h : exec p code s = result) :
    Runs p a s (a.extend code) result := ⟨code, rfl, h⟩

theorem occupied {code : List Instr} (h : exec p code s = result) :
    Runs p a s ((a.occupy r).extend code) result :=
  ⟨code, by rw [Assembly.lines_extend, Assembly.lines_occupy], h⟩

theorem trans (h : Runs p a s b (.ok t)) (h' : Runs p b t c result) : Runs p a s c result := by
  obtain ⟨code, hcode, hexec⟩ := h
  obtain ⟨more, hmore, hexec'⟩ := h'
  refine ⟨code ++ more, by simp [hcode, hmore, Array.append_assoc], ?_⟩
  rw [exec_append_ok hexec, hexec']

/-- Which instructions were written can be read off the lines. -/
theorem eq_code {code more : List Instr}
    (h : b.lines = a.lines ++ (code.map Line.instr).toArray)
    (h' : b.lines = a.lines ++ (more.map Line.instr).toArray) : code = more := by
  have heq := (Array.append_right_inj a.lines).1 (h.symm.trans h')
  exact (List.map_inj_right fun _ _ => Line.instr.inj).1 (List.toArray_inj heq)

theorem unique {result' : Except Halt State} (h : Runs p a s b result)
    (h' : Runs p a s b result') : result = result' := by
  obtain ⟨code, hcode, rfl⟩ := h
  obtain ⟨more, hmore, rfl⟩ := h'
  rw [eq_code hcode hmore]

theorem stopped {halt : Halt} (h : Runs p a s b (.error halt)) (hext : b.Extends c) :
    Runs p a s c (.error halt) := by
  obtain ⟨code, hcode, hexec⟩ := h
  obtain ⟨more, hmore⟩ := hext
  refine ⟨code ++ more, by simp [hcode, hmore, Array.append_assoc], ?_⟩
  exact exec_append_error hexec

end Runs

/-- The instructions from `a` to `b` lead from `s` to `t` and leave alone what the registers
`used` do not own. -/
structure Reaches (p : Platform) (sp : Addr) (a : Assembly) (used : List Register) (s : State)
    (b : Assembly) (t : State) : Prop where
  runs : Runs p a s b (.ok t)
  agrees : Agrees (a.Kept used) sp s t

namespace Reaches

theorem refl : Reaches p sp a used s a s := ⟨.refl, .refl⟩

theorem trans (h : Reaches p sp a used s b t) (htransfer : a.Transfer used b made)
    (h' : Reaches p sp b made t c u) : Reaches p sp a used s c u :=
  ⟨h.runs.trans h'.runs, h.agrees.trans (h'.agrees.mono fun _ hr => htransfer.kept hr)⟩

theorem weaken (h : Reaches p sp a used s b t) (hsub : ∀ r ∈ used, r ∈ more) :
    Reaches p sp a more s b t :=
  ⟨h.runs, h.agrees.mono fun _ hr => hr.of_subset hsub⟩

theorem lines (h : Reaches p sp a used s b t) (hlines : c.lines = b.lines) :
    Reaches p sp a used s c t := by
  obtain ⟨⟨code, hcode, hexec⟩, hagrees⟩ := h
  exact ⟨⟨code, hlines.trans hcode, hexec⟩, hagrees⟩

theorem rsp (h : Reaches p sp a used s b t) : t.regs .rsp = s.regs .rsp :=
  h.agrees.regs _ Assembly.kept_rsp

end Reaches

/-- The instructions from `a` to `b` are stopped by a division. -/
def Faults (p : Platform) (sp : Addr) (a : Assembly) (s : State) (b : Assembly) : Prop :=
  ∃ t, Runs p a s b (.error ⟨.divideError, t⟩) ∧ Agrees (fun _ => False) sp s t

theorem Reaches.faults (h : Reaches p sp a used s b t) (h' : Faults p sp b t c) :
    Faults p sp a s c := by
  obtain ⟨u, hruns, hagrees⟩ := h'
  exact ⟨u, h.runs.trans hruns, (h.agrees.mono fun _ h => h.elim).trans hagrees⟩

theorem Faults.stopped (h : Faults p sp a s b) (hext : b.Extends c) : Faults p sp a s c := by
  obtain ⟨t, hruns, hagrees⟩ := h
  exact ⟨t, hruns.stopped hext, hagrees⟩

theorem Holds.reaches {v : Value} {n : Nat} (h : Holds p sp s v n)
    (hreaches : Reaches p sp a used s b t) (hclosed : v.Closed)
    (hown : a.Owns (used ++ v.held)) : Holds p sp t v n := by
  refine h.agrees hreaches.agrees hclosed (fun r hr => .inl ⟨?_, ?_⟩) Assembly.kept_rbp
  · exact hown.right.busy r hr
  · exact fun hu => hown.apart hu hr

/-! ## Saved registers -/

/-- The state after the registers `rs` are pushed. -/
def State.pushAll (s : State) (rs : List Register) : State := rs.foldl State.push s

/-- The state `t`, with the registers `rs` and the stack pointer as in `s`. -/
def State.restored (t : State) (rs : List Register) (s : State) : State :=
  { t with regs := fun r => if r ∈ rs ∨ r = .rsp then s.regs r else t.regs r }

section

variable {rs : List Register}

theorem exec_push : exec p (rs.map .push) s = .ok (s.pushAll rs) := by
  induction rs generalizing s with
  | nil => rfl
  | cons r rs ih =>
      have hstep : step p s (.push r) = .ok (s.push r) := rfl
      rw [List.map_cons, exec_cons_ok hstep, ih]
      rfl

@[simp] theorem output_pushAll : (s.pushAll rs).output = s.output := by
  induction rs generalizing s with
  | nil => rfl
  | cons r rs ih => exact ih

theorem regs_pushAll (hr : r ≠ .rsp) : (s.pushAll rs).regs r = s.regs r := by
  induction rs generalizing s with
  | nil => rfl
  | cons q rs ih =>
      have hpush : (s.push q).regs r = s.regs r := if_neg hr
      exact ih.trans hpush

theorem rsp_push : (s.push r).regs .rsp = s.regs .rsp - 8 := by
  simp only [State.push, if_true]

theorem mem_pushAll {x : Addr} (hx : (x - s.regs .rsp).toNat < 2 ^ 64 - 8 * rs.length) :
    (s.pushAll rs).mem x = s.mem x := by
  induction rs generalizing s with
  | nil => rfl
  | cons r rs ih =>
      rw [List.length_cons] at hx
      have hnext : (x - (s.regs .rsp - 8)).toNat = (x - s.regs .rsp).toNat + 8 := by
        generalize s.regs .rsp = sp at hx ⊢
        bv_omega
      have hrest : (s.pushAll (r :: rs)).mem x = (s.push r).mem x :=
        ih (by rw [rsp_push, hnext]; omega)
      rw [hrest]
      exact store_apply_of_le (by omega)

/-- Popping in the opposite order undoes the pushes. -/
theorem exec_pop (hrs : .rsp ∉ rs) (hlen : 8 * rs.length < 2 ^ 64)
    (hmem : t.mem = (s.pushAll rs).mem) (hrsp : t.regs .rsp = (s.pushAll rs).regs .rsp) :
    exec p (rs.reverse.map .pop) t = .ok (t.restored rs s) := by
  induction rs generalizing s t with
  | nil =>
      have hstate : t = t.restored [] s := by
        refine State.ext (funext fun r => ?_) rfl rfl
        by_cases hr : r = .rsp
        · simp [State.restored, hr, hrsp, State.pushAll]
        · simp [State.restored, hr]
      exact congrArg Except.ok hstate
  | cons r rs ih =>
      obtain ⟨hr, hrs⟩ : r ≠ .rsp ∧ .rsp ∉ rs := by grind
      rw [List.length_cons] at hlen
      -- The inner registers are restored first, down to the slot of `r`.
      have hinner : exec p (rs.reverse.map .pop) t = .ok (t.restored rs (s.push r)) :=
        ih hrs (by omega) hmem hrsp
      have hslot : load t.mem (s.regs .rsp - 8) 8 = (s.regs r).toNat := by
        have hkept : load t.mem (s.regs .rsp - 8) 8 = load (s.push r).mem (s.regs .rsp - 8) 8 := by
          apply load_congr
          intro i hi
          rw [hmem]
          refine mem_pushAll (s := s.push r) ?_
          rw [rsp_push, add_ofNat_sub i (by omega)]
          omega
        rw [hkept]
        exact (load_store_same (by decide)).trans (Nat.mod_eq_of_lt (s.regs r).isLt)
      rw [List.reverse_cons, List.map_append, exec_append_ok hinner, List.map_singleton,
        exec_singleton]
      refine congrArg Except.ok (State.ext (funext fun q => ?_) rfl rfl)
      have hrsp' : (t.restored rs (s.push r)).regs .rsp = s.regs .rsp - 8 := by
        simp only [State.restored, or_true, if_true, rsp_push]
      change (if q = r then BitVec.ofNat 64 (load t.mem ((t.restored rs (s.push r)).regs .rsp) 8)
        else if q = .rsp then (t.restored rs (s.push r)).regs .rsp + 8
        else (t.restored rs (s.push r)).regs q) = (t.restored (r :: rs) s).regs q
      rw [hrsp', hslot, BitVec.ofNat_toNat, BitVec.setWidth_eq, BitVec.sub_add_cancel]
      by_cases hq : q = r
      · simp [State.restored, hq]
      · by_cases hq' : q = .rsp
        · simp [State.restored, hq', Ne.symm hr]
        · simp [State.restored, hq, hq', State.push]

/-- Registers that are saved around a piece of code have their old contents behind it. -/
theorem exec_saved {code : List Instr} (hrs : .rsp ∉ rs) (hlen : 8 * rs.length < 2 ^ 64)
    (hcode : exec p code (s.pushAll rs) = .ok t) (hmem : t.mem = (s.pushAll rs).mem)
    (hrsp : t.regs .rsp = (s.pushAll rs).regs .rsp) :
    exec p (rs.map .push ++ code ++ rs.reverse.map .pop) s = .ok (t.restored rs s) := by
  have hbefore : exec p (rs.map .push ++ code) s = .ok t := by
    rw [exec_append_ok exec_push, hcode]
  rw [exec_append_ok hbefore]
  exact exec_pop hrs hlen hmem hrsp

theorem agrees_pushAll (rs : List Register) (hsp : s.regs .rsp = sp)
    (hlen : 8 * rs.length ≤ stackRoom) : Agrees (· ≠ .rsp) sp s (s.pushAll rs) := by
  subst hsp
  refine ⟨fun r hr => regs_pushAll hr, fun x hx => ?_, output_pushAll⟩
  apply mem_pushAll
  unfold Sheltered at hx
  omega

theorem Touches.restored {keep : Register → Prop} {qs : List Register}
    (h : Touches qs (s.pushAll rs) t) (hsp : s.regs .rsp = sp)
    (hlen : 8 * rs.length ≤ stackRoom) (hkeep : ∀ r, keep r → r ∈ rs ∨ r ∉ qs) :
    Agrees keep sp s (t.restored rs s) := by
  have hpush := agrees_pushAll rs hsp hlen
  refine ⟨fun r hr => ?_, fun x hx => ?_, h.output.trans output_pushAll⟩
  · by_cases hrs : r ∈ rs ∨ r = .rsp
    · exact if_pos hrs
    · obtain ⟨hrs', hne⟩ := not_or.1 hrs
      have hleft : (t.restored rs s).regs r = t.regs r := if_neg hrs
      rw [hleft, h.regs r ((hkeep r hr).resolve_left hrs'), regs_pushAll hne]
  · exact (congrFun h.mem x).trans (hpush.mem x hx)

theorem Holds.pushAll {v : Value} {n : Nat} (h : Holds p sp s v n) (rs : List Register)
    (hclosed : v.Closed) (hpool : a.Pooled) (hown : a.Owns v.held) (hsp : s.regs .rsp = sp)
    (hlen : 8 * rs.length ≤ stackRoom) : Holds p sp (s.pushAll rs) v n := by
  refine h.agrees (agrees_pushAll rs hsp hlen) hclosed (fun r hr => ?_) (by decide)
  rintro rfl
  have hmem := hpool .rsp (hown.busy .rsp hr)
  revert hmem
  decide

theorem saved_room (hlen : 8 * rs.length ≤ stackRoom) :
    8 * (Emit.saved rs a).length ≤ stackRoom :=
  Nat.le_trans (Nat.mul_le_mul_left 8 (List.length_filter_le _ _)) hlen

/-- Code that changes no register but `ws` runs between saving and restoring those registers
of `rs` that are in use. -/
theorem saved_reaches {ws : List Register} {code : List Instr}
    (hlines : b.lines = a.lines ++ (((Emit.saved rs a).map Instr.push ++ code ++
      (Emit.saved rs a).reverse.map Instr.pop).map Line.instr).toArray)
    (hrs : ∀ r ∈ rs, r ≠ .rsp ∧ r ≠ .rbp) (hlen : 8 * rs.length ≤ stackRoom)
    (hsp : s.regs .rsp = sp) (hcode : exec p code (s.pushAll (Emit.saved rs a)) = .ok t)
    (htouches : Touches ws (s.pushAll (Emit.saved rs a)) t)
    (hws : ∀ r ∈ ws, a.Kept used r → r ∈ rs) :
    Reaches p sp a used s b (t.restored (Emit.saved rs a) s) := by
  have hlen' : 8 * (Emit.saved rs a).length ≤ stackRoom := saved_room hlen
  have hrsp : .rsp ∉ rs := fun h => (hrs _ h).1 rfl
  have hrsp' : .rsp ∉ ws := fun h => hrsp (hws _ h Assembly.kept_rsp)
  refine ⟨⟨_, hlines, ?_⟩, htouches.restored hsp hlen' fun r hr => ?_⟩
  · refine exec_saved (by simp [hrsp]) ?_ hcode htouches.mem (htouches.regs _ hrsp')
    unfold stackRoom at hlen'
    omega
  · by_cases hmem : r ∈ ws
    · have hr' := hws r hmem hr
      obtain ⟨hne, hne'⟩ := hrs r hr'
      rcases hr with ⟨hbusy, -⟩ | rfl | rfl
      · exact .inl (Emit.mem_saved.2 ⟨hr', hbusy⟩)
      · exact absurd rfl hne
      · exact absurd rfl hne'
    · exact .inr hmem

theorem saved_faults {ws : List Register} {code more : List Instr}
    (hlines : b.lines = a.lines ++ (((Emit.saved rs a).map Instr.push ++ code ++
      more).map Line.instr).toArray)
    (hlen : 8 * rs.length ≤ stackRoom) (hsp : s.regs .rsp = sp)
    (hcode : exec p code (s.pushAll (Emit.saved rs a)) = .error ⟨.divideError, t⟩)
    (htouches : Touches ws (s.pushAll (Emit.saved rs a)) t) : Faults p sp a s b := by
  refine ⟨t, ⟨_, hlines, ?_⟩, ?_⟩
  · have hbefore : exec p ((Emit.saved rs a).map .push ++ code) s = .error ⟨.divideError, t⟩ := by
      rw [exec_append_ok exec_push, hcode]
    exact exec_append_error hbefore
  · have hpush := agrees_pushAll (Emit.saved rs a) hsp (saved_room hlen)
    exact (hpush.mono fun _ h => h.elim).trans (htouches.agrees fun _ h => h.elim)

theorem view_restored {w : Width} (hr : r ∉ rs) (hrsp : r ≠ .rsp) :
    (t.restored rs s).view r w = t.view r w := by
  have hleft : (t.restored rs s).regs r = t.regs r := if_neg (not_or.2 ⟨hr, hrsp⟩)
  rw [State.view, hleft, State.view]

end

end Machine

end Tern
