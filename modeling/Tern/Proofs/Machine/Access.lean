import Tern.Proofs.Machine.Indexing

/-!
# Access to memory, executed

The instructions of a reference leave the address in the result, and those of an element make
its address out of the base, the index and the size of an element.  Assignments store the
number, calls do what their procedure says, and all of them spare what they do not own.
-/

namespace Tern

namespace Machine

open Assembly

variable {p : Platform} {sp : Addr} {a b c : Assembly} {s t u : State} {r base index : Register}
  {w : Width} {v array : Value} {o : Operand} {n i : Nat}

/-! ## Free registers -/

theorem address_set_of_notMem {m : Address} (h : r ∉ m.registers) :
    (s.set r w n).address p m = s.address p m := by
  apply State.address_congr
  intro q hq
  exact State.regs_set_of_ne fun heq => h (heq ▸ hq)

theorem notMem_registers {ty : Ty} {m : Address} {hs : List Register}
    (hr : a.firstFree? = some r) (hown : a.Owns hs) (hclosed : (Value.mem ty m hs).Closed) :
    r ∉ m.registers := by
  intro hmem
  rcases hclosed r hmem with rfl | hheld
  · have hkept : a.Kept [] .rbp := kept_rbp
    exact not_kept_free hr hkept
  · exact (firstFree?_eq_some hr).2 (hown.busy r hheld)

theorem Reaches.fresh {used rs : List Register} {instr : Instr} (hr : a.firstFree? = some r)
    (hstep : step p s instr = .ok (s.set r w n)) :
    Reaches p sp a used s (((a.occupy r).extend [instr]).release rs) (s.set r w n) := by
  refine Reaches.lines (b := (a.occupy r).extend [instr]) ⟨.occupied ?_, ?_⟩ rfl
  · rw [exec_singleton, hstep]
  · exact Agrees.refl.set (not_kept_free hr)

theorem reference_reaches {ty : Ty} {m : Address} {hs : List Register}
    (h : Emit.reference (.value (.mem ty m hs)) a = .ok v b) :
    v.type = .pointer ty ∧ ∃ t, Reaches p sp a hs s b t ∧
      Holds p sp t v (s.address p m).toNat := by
  obtain ⟨_, _, _, r, hv, hr, rfl, rfl⟩ := Emit.reference_ok h
  cases hv
  refine ⟨rfl, s.set r .qword (s.address p m).toNat, .fresh hr rfl, holds_reg (w := .qword) ?_ rfl⟩
  rw [State.view_set]
  exact Nat.mod_eq_of_lt (s.address p m).isLt

/-! ## Elements -/

/-- The elements of `v` start at `x`: an array is its own address, a pointer holds it. -/
def Starts (p : Platform) (sp : Addr) (s : State) (v : Value) (x : Addr) : Prop :=
  (∃ e k m hs, v = .mem (.array e k) m hs ∧ s.address p m = x) ∨
    (v.type.isArray = false ∧ Holds p sp s v x.toNat)

theorem size_eq_of_element? {ty e : Ty} (h : ty.element? = some e) (harray : ty.isArray = false) :
    ty.size = Width.qword.bytes := by
  cases ty with
  | builtin b => cases h
  | pointer base => rfl
  | array base k => cases harray

theorem Starts.origin_eq {e : Ty} {x : Addr} (h : Starts p sp s v x)
    (he : v.type.element? = some e) : origin p s v = x := by
  obtain ⟨_, _, m, hs, rfl, hx⟩ | ⟨harray, hx⟩ := h
  · rw [origin, Ty.isArray, if_pos rfl, hx]
  · have hread := hx.reading_eq
    have hsize := size_eq_of_element? he harray
    cases v with
    | const ty n =>
        obtain ⟨rfl, -⟩ := hx
        rw [origin, BitVec.ofInt_natCast, BitVec.ofNat_toNat, BitVec.setWidth_eq]
    | reg ty r =>
        have hty : ty.size = Width.qword.bytes := hsize
        apply BitVec.eq_of_toNat_eq
        rw [← hread, reading, hty]
        exact (view_qword s r).symm
    | mem ty m hs =>
        have hty : ty.size = Width.qword.bytes := hsize
        have hpointer : ¬ ty.isArray = true := Bool.eq_false_iff.1 harray
        rw [reading, hty] at hread
        rw [origin, if_neg hpointer]
        apply BitVec.eq_of_toNat_eq
        rw [BitVec.toNat_ofNat, ← hread]
        exact Nat.mod_eq_of_lt load_lt

/-- The address of an element is that of the first one plus the index times the element size. -/
theorem element_reaches {e : Ty} {x : Addr} {k : Value}
    (h : Emit.element (.value array) (.value k) a = .ok v b) (hpool : a.Pooled)
    (hown : a.Owns (array.held ++ k.held)) (hk : k.Closed) (ht : array.type.element? = some e)
    (he : e.size < 2 ^ 31) (hx : Starts p sp s array x) (hi : Holds p sp s k i) :
    ∃ t m hs, Reaches p sp a (array.held ++ k.held) s b t ∧ v = .mem e m hs ∧
      t.address p m = x + BitVec.ofNat 64 (i * e.size) := by
  obtain ⟨rs, ⟨t, m, hs, hruns, htouches, rfl, haddress⟩, hrs⟩ :=
    element_locates p s h ht he hown.busy (fun _ hr => hown.apart hr) hk
  rw [hx.origin_eq ht, hi.reading_eq] at haddress
  refine ⟨t, m, hs, ⟨hruns, htouches.agrees fun r hkept hmem => ?_⟩, rfl, haddress⟩
  rcases hrs r hmem with ⟨hr, hfree⟩ | hheld
  · exact not_kept hr (fun hbusy => absurd hbusy hfree) hkept
  · exact hpool.not_kept hown hheld hkept

/-! ## Assignments -/

/-- The instructions from `a` to `b` store the `k` low bytes of `n` at `x`.  Of the registers
only free ones change. -/
def Stores (p : Platform) (a : Assembly) (s : State) (b : Assembly) (x : Addr) (k n : Nat) : Prop :=
  ∃ t, Runs p a s b (.ok t) ∧ (∀ r, a.Kept [] r → t.regs r = s.regs r) ∧
    t.mem = store s.mem x k n ∧ t.output = s.output

theorem stores_scratch {ty : Ty} {m : Address} {hs rs : List Register} (hr : a.firstFree? = some r)
    (hown : a.Owns hs) (hclosed : (Value.mem ty m hs).Closed) (hn : n < 2 ^ (8 * w.bytes))
    (ho : s.source p true w o = some n) :
    Stores p a s
      (((a.occupy r).extend [.mov (.reg r w) o, .mov (.mem none m) (.reg r w)]).release rs)
      (s.address p m) w.bytes n := by
  have hview : (s.set r w n).view r w = n := by rw [State.view_set, Nat.mod_eq_of_lt hn]
  have haddress : (s.set r w n).address p m = s.address p m :=
    address_set_of_notMem (notMem_registers hr hown hclosed)
  refine ⟨(s.set r w n).put p w m n,
    ⟨[.mov (.reg r w) o, .mov (.mem none m) (.reg r w)], by simp, ?_⟩, fun q hq => ?_, ?_, rfl⟩
  · rw [exec_cons_ok (step_mov ho), exec_singleton]
    simp only [step, hview]
  · have hne : q ≠ r := fun heq => not_kept_free hr (heq ▸ hq)
    exact State.regs_set_of_ne hne
  · rw [State.put, haddress]
    rfl

theorem store_stores {ty : Ty} {m : Address} {hs : List Register} {e : Unit}
    (h : Emit.store w m v a = .ok e b) (hown : a.Owns hs) (hclosed : (Value.mem ty m hs).Closed)
    (hsize : v.type.size = w.bytes) (p : Platform) (s : State) :
    Stores p a s b (s.address p m) w.bytes (reading p s v) := by
  have hlt : reading p s v < 2 ^ (8 * w.bytes) := hsize ▸ reading_lt p s v
  rcases Emit.store_ok h with ⟨_, m', _, tmp, rfl, htmp, rfl⟩ | ⟨hneeds, o, tmp, ho, htmp, rfl⟩ |
    ⟨hmem, hneeds, o, ho, rfl⟩
  · exact stores_scratch htmp hown hclosed hlt (source_reading p s rfl hsize (.inl rfl))
  · obtain rfl := eq_qword_of_needsRegister hneeds
    exact stores_scratch htmp hown hclosed hlt (source_reading p s ho hsize (.inl rfl))
  · refine ⟨s.put p w m (reading p s v), .extend ?_, fun _ _ => rfl, rfl, rfl⟩
    rw [exec_singleton]
    cases v with
    | mem ty' m' hs' => exact absurd rfl (hmem ty' m' hs')
    | reg ty' q =>
        obtain ⟨w', hw', rfl⟩ := ho
        obtain rfl : w' = w := Width.bytes_inj (hw'.symm.trans hsize)
        simp only [step, if_true, reading_reg p s hw']
    | const ty' c =>
        obtain ⟨w', hw', rfl⟩ := ho
        obtain rfl : w' = w := Width.bytes_inj (hw'.symm.trans hsize)
        simp only [step, encodable_of_needsRegister hneeds, if_true, reading_const p s c hw']

theorem assignment_stores {ty : Ty} {m : Address} {hs : List Register} {x : Value}
    (h : Emit.assignment (.value (.mem ty m hs)) (.value v) a = .ok x b) (hown : a.Owns hs)
    (hclosed : (Value.mem ty m hs).Closed) (htype : v.type = ty) (p : Platform) (s : State) :
    Stores p a s b (s.address p m) ty.size (reading p s v) := by
  obtain ⟨_, _, _, _, w, c, ht, hv, rfl, hsize, hstore, rfl⟩ := Emit.assignment_ok h
  cases ht
  cases hv
  rw [hsize]
  obtain ⟨t, hruns, hrest⟩ := store_stores hstore hown hclosed (htype ▸ hsize) p s
  exact ⟨t, hruns, hrest⟩

/-! ## Calls -/

def newlineEvent (p : Platform) (m : Memory) : Event := ⟨1, [m (p.place Emit.newlineLabel)]⟩

theorem systemCall_write {x : Addr} (hrax : s.regs .rax = 1) (hrdi : s.regs .rdi = 1)
    (hrsi : s.regs .rsi = x) (hrdx : s.regs .rdx = 1) :
    ∃ t, s.systemCall p = .ok t ∧ t.mem = s.mem ∧ t.output = s.output ++ [⟨1, [s.mem x]⟩] ∧
      ∀ r ∉ [Register.rax, .rcx, .r11], t.regs r = s.regs r := by
  have hwrite : (s.regs .rax).toNat = 1 := by rw [hrax]; rfl
  refine ⟨{ s with
    regs := fun r => if r = .rax ∨ r = .rcx ∨ r = .r11 then p.leftover s r else s.regs r
    output := s.output ++ [⟨1, [s.mem x]⟩] }, ?_, rfl, rfl, fun r hr => ?_⟩
  · rw [State.systemCall, if_pos hwrite]
    simp [hrdi, hrsi, hrdx]
  · simp only [List.mem_cons, List.not_mem_nil, or_false] at hr
    exact if_neg hr

theorem newlineCode_exec (p : Platform) (s : State) :
    ∃ t, exec p Emit.newlineCode s = .ok t ∧ t.mem = s.mem ∧
      t.output = s.output ++ [newlineEvent p s.mem] ∧
      ∀ r ∉ Emit.newlineRegisters, t.regs r = s.regs r := by
  have hone : ∀ u : State, u.source p true .qword (.imm 1) = some 1 := fun _ => rfl
  have hlabel : ∀ u : State, u.source p true .qword (.label Emit.newlineLabel) =
      some (p.place Emit.newlineLabel).toNat := fun _ => rfl
  let s₁ := s.set .rax .qword 1
  let s₂ := s₁.set .rdi .qword 1
  let s₃ := s₂.set .rsi .qword (p.place Emit.newlineLabel).toNat
  let s₄ := s₃.set .rdx .qword 1
  have hrsi : s₄.regs .rsi = p.place Emit.newlineLabel := by
    have hset : s₄.regs .rsi = s₃.regs .rsi := State.regs_set_of_ne (by decide)
    rw [hset]
    exact toNat_regs_set_qword s₂ .rsi _
  obtain ⟨t, hcall, hmem, houtput, hregs⟩ := systemCall_write (p := p) (s := s₄) rfl rfl hrsi rfl
  refine ⟨t, ?_, hmem, houtput, fun r hr => ?_⟩
  · rw [Emit.newlineCode, exec_cons_ok (step_mov (hone s)), exec_cons_ok (step_mov (hone s₁)),
      exec_cons_ok (step_mov (hlabel s₂)), exec_cons_ok (step_mov (hone s₃)), exec_singleton]
    exact hcall
  · simp only [Emit.newlineRegisters, List.mem_cons, List.not_mem_nil, or_false, not_or] at hr
    obtain ⟨hrax, hrcx, hrdx, hrsi, hrdi, hr11⟩ := hr
    rw [hregs r (by simp [hrax, hrcx, hr11]), State.regs_set_of_ne hrdx,
      State.regs_set_of_ne hrsi, State.regs_set_of_ne hrdi, State.regs_set_of_ne hrax]

/-- Writing a line feed restores all registers in use.  What it writes is the byte at the label,
after those registers were saved. -/
theorem writeNewline_exec {e : Unit} (h : Emit.writeNewline a = .ok e b) (p : Platform)
    (s : State) :
    ∃ t, Runs p a s b (.ok t) ∧ (∀ r, a.Kept [] r → t.regs r = s.regs r) ∧
      (∀ x, Sheltered (s.regs .rsp) x → t.mem x = s.mem x) ∧
      t.output = s.output ++
        [newlineEvent p (s.pushAll (Emit.saved Emit.newlineRegisters a)).mem] := by
  let rs := Emit.saved Emit.newlineRegisters a
  have hroom : 8 * Emit.newlineRegisters.length ≤ stackRoom := by decide
  have hlen : 8 * rs.length ≤ stackRoom := saved_room hroom
  have hrsp : Register.rsp ∉ rs := by simp [rs, Emit.newlineRegisters]
  have hpush := agrees_pushAll rs (s := s) rfl hlen
  obtain ⟨t, hexec, hmem, houtput, hregs⟩ := newlineCode_exec p (s.pushAll rs)
  refine ⟨t.restored rs s, ⟨rs.map .push ++ Emit.newlineCode ++ rs.reverse.map .pop, ?_, ?_⟩,
    fun r hr => ?_, fun x hx => ?_, ?_⟩
  · rw [Emit.writeNewline_ok h]
    simp [rs, Array.append_assoc]
  · refine exec_saved hrsp ?_ hexec hmem (hregs _ (by decide))
    unfold stackRoom at hlen
    omega
  · by_cases hrs : r ∈ rs ∨ r = .rsp
    · exact if_pos hrs
    · obtain ⟨hrs', hne⟩ := not_or.1 hrs
      have hfree : r ∉ Emit.newlineRegisters := by
        intro hmem
        rcases hr with ⟨hbusy, -⟩ | rfl | rfl
        · exact hrs' (Emit.mem_saved.2 ⟨hmem, hbusy⟩)
        · exact hne rfl
        · revert hmem
          decide
      have hleft : (t.restored rs s).regs r = t.regs r := if_neg hrs
      rw [hleft, hregs r hfree, hpush.regs r hne]
  · exact (congrFun hmem x).trans (hpush.mem x hx)
  · change t.output = _
    rw [houtput, output_pushAll]

theorem writeNewline_runs {e : Unit} (h : Emit.writeNewline a = .ok e b) (hsp : s.regs .rsp = sp)
    (hplace : Sheltered sp (p.place Emit.newlineLabel)) :
    ∃ t, Runs p a s b (.ok t) ∧ (∀ r, a.Kept [] r → t.regs r = s.regs r) ∧
      (∀ x, Sheltered sp x → t.mem x = s.mem x) ∧
      t.output = s.output ++ [newlineEvent p s.mem] := by
  subst hsp
  obtain ⟨t, hruns, hregs, hmem, houtput⟩ := writeNewline_exec h p s
  have hpush := agrees_pushAll (Emit.saved Emit.newlineRegisters a) (s := s) rfl
    (saved_room (by decide))
  have hbyte : newlineEvent p (s.pushAll (Emit.saved Emit.newlineRegisters a)).mem =
      newlineEvent p s.mem := by
    rw [newlineEvent, hpush.mem _ hplace, newlineEvent]
  exact ⟨t, hruns, hregs, hmem, hbyte ▸ houtput⟩

theorem digitValue_reaches {ty : Ty} {x : Value} (h : Emit.digitValue (.value v) ty a = .ok x b)
    (hsize : v.type.size = 1) (hty : ty.size = 1) (hn : Holds p sp s v n) :
    x.type = ty ∧ ∃ t, Reaches p sp a [] s b t ∧ Holds p sp t x ((n + 2 ^ 8 - 48) % 2 ^ 8) := by
  obtain ⟨_, r, o, hv, hr, ho, rfl, rfl⟩ := Emit.digitValue_ok h
  cases hv
  have hsource : s.source p true .byte o = some n := hn.source ho hsize (.inl rfl)
  have hlt : n < 2 ^ (8 * Width.byte.bytes) := by
    have hbyte : v.type.size = Width.byte.bytes := hsize
    rw [← hbyte]
    exact hn.lt
  have hview : (s.set r .byte n).view r .byte = n := by rw [State.view_set, Nat.mod_eq_of_lt hlt]
  have hdigit : (s.set r .byte n).source p false .byte (.imm 48) = some 48 := rfl
  refine ⟨rfl, (s.set r .byte n).set r .byte (n + 2 ^ 8 - 48), ⟨.occupied ?_, ?_⟩, ?_⟩
  · rw [exec_cons_ok (step_mov hsource), exec_singleton, step_combine hdigit, hview]
    rfl
  · exact (Agrees.refl.set (not_kept_free hr)).set (not_kept_free hr)
  · exact Holds.set (w := .byte) hty

end Machine

end Tern
