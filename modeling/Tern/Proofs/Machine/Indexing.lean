import Tern.Proofs.Machine.Conversion

/-!
# Indexing, executed

Whichever way the code of an element computes the address, by a displacement, with a scale or
with a multiplication, it is where the elements start plus the index times the size of one
element.  An index is read without a sign at the width of its type, whether it is a constant or
not.
-/

namespace Tern

namespace Machine

open Assembly

variable {p : Platform} {sp : Addr} {a b c : Assembly} {s t u : State} {r base index : Register}
  {w : Width} {v array k : Value} {o : Operand} {e : Ty} {n i : Nat} {rs qs : List Register}

/-- Where the elements of a value start: an array in memory is there itself, a pointer in memory
and a register hold the address. -/
def origin (p : Platform) (s : State) : Value → Addr
  | .const _ c => BitVec.ofInt 64 c
  | .reg _ r => s.regs r
  | .mem t m _ =>
      if t.isArray then s.address p m else BitVec.ofNat 64 (load s.mem (s.address p m) 8)

theorem toNat_regs_set_qword (s : State) (r : Register) (x : Addr) :
    (s.set r .qword x.toNat).regs r = x := by
  apply BitVec.eq_of_toNat_eq
  rw [State.toNat_regs_set (by decide)]
  exact Nat.mod_eq_of_lt x.isLt

theorem view_qword (s : State) (r : Register) : s.view r .qword = (s.regs r).toNat :=
  Nat.mod_eq_of_lt (s.regs r).isLt

theorem exists_holds (p : Platform) (s : State) (hsize : v.type.size = w.bytes)
    (hconst : v.isConst = false) : ∃ sp, Holds p sp s v (reading p s v) := by
  cases v with
  | const ty c => cases hconst
  | reg ty r => exact ⟨0, rfl⟩
  | mem ty m hs =>
      refine ⟨s.address p m, rfl, fun i hi => ?_⟩
      have hbytes : ty.size ≤ 8 := (show ty.size = w.bytes from hsize) ▸ by cases w <;> decide
      rw [Sheltered, add_ofNat_sub i (by omega), stackRoom]
      omega

/-! ## Single steps -/

theorem Runs.fresh {instr : Instr} (hstep : step p s instr = .ok t) :
    Runs p a s (((a.occupy r).extend [instr]).release rs) (.ok t) :=
  ⟨[instr], by simp, by rw [exec_singleton, hstep]⟩

theorem elementBase_runs (p : Platform) (s : State) (h : Emit.elementBase v a = .ok r b) :
    ∃ t rs, Runs p a s b (.ok t) ∧ Touches rs s t ∧ (∀ q ∈ rs, a.firstFree? = some q) ∧
      t.regs r = origin p s v := by
  rcases Emit.elementBase_ok h with ⟨ty, rfl, rfl⟩ | ⟨ty, m, hs, rfl, hr, rfl⟩
  · exact ⟨s, [], .refl, .refl, List.forall_mem_nil _, rfl⟩
  · refine ⟨s.set r .qword (origin p s (.mem ty m hs)).toNat, [r], .fresh ?_,
      .set (List.mem_singleton_self r), List.forall_mem_singleton.2 hr, toNat_regs_set_qword s r _⟩
    cases harray : ty.isArray with
    | true =>
        simp only [origin, harray, if_true]
        rfl
    | false =>
        have hlt : load s.mem (s.address p m) 8 < 2 ^ 64 := load_lt
        simp only [origin, harray, Bool.false_eq_true, if_false, BitVec.toNat_ofNat,
          Nat.mod_eq_of_lt hlt]
        apply step_mov
        rw [State.source, if_pos (.inl rfl)]
        rfl

theorem extendedMove_step (p : Platform) (s : State) (r : Register) (ho : v.SpeltSized w o)
    (hsize : v.type.size = w.bytes) (hconst : v.isConst = false) :
    ∃ t, step p s (Emit.extendedMove r w o) = .ok t ∧ Touches [r] s t ∧
      (t.regs r).toNat = reading p s v := by
  obtain ⟨sp, h⟩ := exists_holds p s hsize hconst
  have hlt : reading p s v < 2 ^ (8 * w.bytes) := hsize ▸ reading_lt p s v
  suffices hstep : ∃ w' : Width, 4 ≤ w'.bytes ∧ reading p s v < 2 ^ (8 * w'.bytes) ∧
      step p s (Emit.extendedMove r w o) = .ok (s.set r w' (reading p s v)) by
    obtain ⟨w', hw', hlt', hstep⟩ := hstep
    refine ⟨_, hstep, .set (List.mem_singleton_self r), ?_⟩
    rw [State.toNat_regs_set hw', Nat.mod_eq_of_lt hlt']
  unfold Emit.extendedMove
  by_cases hw : w.bytes < 4
  · have hww' : w.bytes < Width.qword.bytes := Nat.lt_of_lt_of_le hw (by decide)
    refine ⟨.qword, by decide, Nat.lt_of_lt_of_le hlt (two_pow_width_le w), ?_⟩
    rw [if_pos hw, step_movzx h ho hsize hconst hw hww']
  · refine ⟨w, by omega, hlt, ?_⟩
    rw [if_neg hw]
    apply step_mov
    rcases h.sized ho hsize hconst with ⟨q, rfl, hq⟩ | ⟨m, rfl, hm⟩
    · rw [State.source, if_pos rfl, hq]
    · rw [State.source, if_pos (.inr rfl), hm]

theorem extendIndex_runs (p : Platform) (s : State) (h : Emit.extendIndex v a = .ok r b)
    (hconst : v.isConst = false) :
    ∃ t, Runs p a s b (.ok t) ∧ Touches [r] s t ∧ (t.regs r).toNat = reading p s v := by
  obtain ⟨w, hsize, ⟨ty, rfl, rfl⟩ | ⟨-, o, ho, hr, rfl⟩⟩ := Emit.extendIndex_ok h
  · by_cases hw : w = .qword
    · subst hw
      have hsize : ty.size = 8 := hsize
      refine ⟨s, ?_, .refl, ?_⟩
      · rw [if_pos rfl, extend_nil]
        exact .refl
      · rw [reading, hsize]
        exact (view_qword s r).symm
    · have ho : (Value.reg ty r).SpeltSized w (.reg r w) := ⟨w, hsize, rfl⟩
      obtain ⟨t, hstep, htouches, hread⟩ := extendedMove_step p s r ho hsize hconst
      rw [if_neg hw]
      exact ⟨t, .extend (exec_singleton.trans hstep), htouches, hread⟩
  · obtain ⟨t, hstep, htouches, hread⟩ := extendedMove_step p s r ho hsize hconst
    exact ⟨t, .fresh hstep, htouches, hread⟩

/-! ## Addresses -/

/-- The code from `a` to `b` changes the registers `rs` only, and leads to a state in which `v`,
of type `e`, is at `x`. -/
def Locates (p : Platform) (a : Assembly) (s : State) (b : Assembly) (rs : List Register)
    (v : Value) (e : Ty) (x : Addr) : Prop :=
  ∃ t m hs, Runs p a s b (.ok t) ∧ Touches rs s t ∧ v = .mem e m hs ∧ t.address p m = x

theorem Locates.after {x : Addr} (h : Locates p b t c qs v e x) (hruns : Runs p a s b (.ok t))
    (htouches : Touches rs s t) : Locates p a s c (rs ++ qs) v e x := by
  obtain ⟨u, m, hs, hruns', htouches', hv, hx⟩ := h
  exact ⟨u, m, hs, hruns.trans hruns', (htouches.mono (by simp +contextual)).trans
    (htouches'.mono (by simp +contextual)), hv, hx⟩

theorem scaledElement_locates (p : Platform) (h : Emit.scaledElement e base index a = .ok v b)
    (hne : base ≠ index) (he : e.size < 2 ^ 31) (hi : (s.regs index).toNat = i) :
    Locates p a s b [index] v e (s.regs base + BitVec.ofNat 64 (i * e.size)) := by
  have hindex : s.regs index = BitVec.ofNat 64 i := by
    rw [← hi, BitVec.ofNat_toNat, BitVec.setWidth_eq]
  rcases Emit.scaledElement_ok h with ⟨w, -, rfl, rfl⟩ | ⟨-, rfl, rfl⟩
  · refine ⟨s, _, _, .refl, .refl, rfl, ?_⟩
    rw [State.address]
    simp only [hindex, BitVec.ofInt_natCast, BitVec.ofNat_mul]
    exact BitVec.add_comm _ _
  · have hstep : step p s (.imul index e.size) = .ok (s.set index .qword (i * e.size)) := by
      simp only [step, he, if_true, view_qword, hi]
    refine ⟨s.set index .qword (i * e.size), _, _, .extend (exec_singleton.trans hstep),
      .set (List.mem_singleton_self index), rfl, ?_⟩
    have hproduct : (s.set index .qword (i * e.size)).regs index =
        BitVec.ofNat 64 (i * e.size) := by
      apply BitVec.eq_of_toNat_eq
      rw [State.toNat_regs_set (by decide), BitVec.toNat_ofNat]
      rfl
    have hone : BitVec.ofInt 64 1 = 1#64 := rfl
    rw [State.address]
    simp only [hproduct, State.regs_set_of_ne hne, hone, BitVec.mul_one]
    exact BitVec.add_comm _ _

theorem constantElement_locates (p : Platform) (s : State)
    (h : Emit.constantElement e base i a = .ok v b) (hbase : base ∈ a.busy) (he : e.size < 2 ^ 31)
    (hi : i < 2 ^ 64) :
    ∃ rs, Locates p a s b rs v e (s.regs base + BitVec.ofNat 64 (i * e.size)) ∧
      ∀ r ∈ rs, a.firstFree? = some r := by
  rcases Emit.constantElement_ok h with ⟨-, rfl, rfl⟩ | ⟨-, r, hr, h⟩
  · refine ⟨[], ⟨s, _, _, .refl, .refl, rfl, ?_⟩, List.forall_mem_nil _⟩
    have hone : BitVec.ofInt 64 1 = 1#64 := rfl
    have hoffset : BitVec.ofInt 64 ((i : Int) * e.size) = BitVec.ofNat 64 (i * e.size) := by
      rw [← Int.natCast_mul, BitVec.ofInt_natCast]
    rw [State.address]
    simp only [hoffset, hone, BitVec.mul_one]
  · -- The displacement does not fit, so the index goes through a register like any other.
    have hsource : s.source p true .qword (.imm (Word.signed 8 i)) = some i := by
      have hencodable : encodable true .qword (Word.signed 8 i) = true := encodable_signed _
      have hwrap : wrap .qword (Word.signed 8 i) = i := wrap_signed (w := .qword) rfl hi
      rw [State.source, if_pos hencodable, hwrap]
    have hne : base ≠ r := fun heq => (firstFree?_eq_some hr).2 (heq ▸ hbase)
    have hindex : ((s.set r .qword i).regs r).toNat = i := by
      rw [State.toNat_regs_set (by decide)]
      exact Nat.mod_eq_of_lt hi
    have hscaled := scaledElement_locates p h hne he hindex
    rw [State.regs_set_of_ne hne] at hscaled
    have hstep := exec_singleton.trans (step_mov (r := r) hsource)
    refine ⟨[r] ++ [r], hscaled.after (.occupied hstep) (.set (List.mem_singleton_self r)), ?_⟩
    simpa using hr

theorem elementAt_locates (p : Platform) (s : State)
    (h : Emit.elementAt e base (.value k) a = .ok v b) (hbase : base ∈ a.busy)
    (hne : base ∉ k.held) (he : e.size < 2 ^ 31) :
    ∃ rs, Locates p a s b rs v e (s.regs base + BitVec.ofNat 64 (reading p s k * e.size)) ∧
      ∀ r ∈ rs, a.firstFree? = some r ∨ r ∈ k.held := by
  rcases Emit.elementAt_ok h with ⟨ty, n, w, hv, hw, hat⟩ | ⟨y, r, c, hv, hconst, hr, hat⟩
  · cases hv
    have hread : ((reading p s (.const ty n) : Nat) : Int) = Word.unsigned w.bytes n := by
      rw [reading, hw, ← Word.unsigned_eq_emod, Int.toNat_of_nonneg (Word.unsigned_nonneg _ _)]
    have hlt : reading p s (.const ty n) < 2 ^ 64 :=
      Nat.lt_of_lt_of_le (reading_lt p s (.const ty n)) (hw ▸ two_pow_width_le w)
    rw [← hread] at hat
    obtain ⟨rs, hlocates, hrs⟩ := constantElement_locates p s hat hbase he hlt
    exact ⟨rs, hlocates, fun r hr => .inl (hrs r hr)⟩
  · cases hv
    have hfrom : a.firstFree? = some r ∨ r ∈ k.held := by
      obtain ⟨w, -, ⟨ty, rfl, -⟩ | ⟨-, o, -, hfree, -⟩⟩ := Emit.extendIndex_ok hr
      · exact .inr (List.mem_singleton_self r)
      · exact .inl hfree
    have hne' : base ≠ r := by
      rintro rfl
      rcases hfrom with hfree | hheld
      · exact (firstFree?_eq_some hfree).2 hbase
      · exact hne hheld
    obtain ⟨t, hruns, htouches, hread⟩ := extendIndex_runs p s hr hconst
    have hscaled := scaledElement_locates p hat hne' he hread
    rw [htouches.regs base (by simpa using hne')] at hscaled
    refine ⟨[r] ++ [r], hscaled.after hruns htouches, ?_⟩
    simpa using hfrom

theorem reading_touches (h : Touches rs s t) (hclosed : k.Closed)
    (hbusy : ∀ r ∈ k.held, r ∈ a.busy) (hrs : ∀ r ∈ rs, a.firstFree? = some r) :
    reading p t k = reading p s k := by
  have hheld : ∀ r ∈ k.held, t.regs r = s.regs r := fun r hr =>
    h.regs r fun hmem => (firstFree?_eq_some (hrs r hmem)).2 (hbusy r hr)
  have hrbp : t.regs .rbp = s.regs .rbp := h.regs _ fun hmem => by
    have hpool := (firstFree?_eq_some (hrs _ hmem)).1
    revert hpool
    decide
  cases k with
  | const ty n => rfl
  | reg ty r => rw [reading, reading, hheld r (List.mem_singleton_self r)]
  | mem ty m hs =>
      rw [reading, reading, address_eq_of_closed hclosed hheld hrbp, h.mem]

theorem elementBase_busy (h : Emit.elementBase array a = .ok base b)
    (hbusy : ∀ r ∈ array.held, r ∈ a.busy) (hindex : ∀ r ∈ k.held, r ∈ a.busy)
    (happart : ∀ r ∈ array.held, r ∉ k.held) :
    base ∈ b.busy ∧ base ∉ k.held ∧ ∀ r ∈ a.busy, r ∉ array.held → r ∈ b.busy := by
  rcases Emit.elementBase_ok h with ⟨ty, rfl, rfl⟩ | ⟨ty, m, hs, rfl, hr, rfl⟩
  · have hbase : base ∈ (Value.reg ty base).held := List.mem_singleton_self base
    exact ⟨hbusy base hbase, happart base hbase, fun r hr _ => hr⟩
  · have hfree : base ∉ a.busy := (firstFree?_eq_some hr).2
    simp only [mem_busy_release, busy_extend, mem_busy_occupy]
    exact ⟨⟨.inr trivial, fun hmem => hfree (hbusy base hmem)⟩,
      fun hmem => hfree (hindex base hmem), fun r hr hheld => ⟨.inl hr, hheld⟩⟩

/-- The address of an element is where the elements start plus the index times the size.  The
registers that change were free or belong to the operands. -/
theorem element_locates (p : Platform) (s : State)
    (h : Emit.element (.value array) (.value k) a = .ok v b)
    (ht : array.type.element? = some e) (he : e.size < 2 ^ 31)
    (hbusy : ∀ r ∈ array.held ++ k.held, r ∈ a.busy) (happart : ∀ r ∈ array.held, r ∉ k.held)
    (hk : k.Closed) :
    ∃ rs, Locates p a s b rs v e (origin p s array + BitVec.ofNat 64 (reading p s k * e.size)) ∧
      ∀ r ∈ rs, (r ∈ Register.pool ∧ r ∉ a.busy) ∨ r ∈ array.held ++ k.held := by
  obtain ⟨_, _, base, c, hv, -, ht', hbase, h⟩ := Emit.element_ok h
  cases hv
  obtain rfl := Option.some.inj (ht.symm.trans ht')
  rw [List.forall_mem_append] at hbusy
  obtain ⟨hheld, hindex⟩ := hbusy
  obtain ⟨hinUse, hne, hstill⟩ := elementBase_busy hbase hheld hindex happart
  obtain ⟨t, rs, hruns, htouches, hrs, horigin⟩ := elementBase_runs p s hbase
  obtain ⟨qs, hlocates, hqs⟩ := elementAt_locates p t h hinUse hne he
  rw [horigin, reading_touches htouches hk hindex hrs] at hlocates
  refine ⟨rs ++ qs, hlocates.after hruns htouches, ?_⟩
  rw [List.forall_mem_append]
  refine ⟨fun r hr => .inl (firstFree?_eq_some (hrs r hr)), fun r hr => ?_⟩
  rcases hqs r hr with hfree | hmem
  · obtain ⟨hpool, hfree⟩ := firstFree?_eq_some hfree
    by_cases hr : r ∈ array.held
    · exact .inr (List.mem_append_left _ hr)
    · exact .inl ⟨hpool, fun hmem => hfree (hstill r hmem hr)⟩
  · exact .inr (List.mem_append_right _ hmem)

/-! ## Chains of indexes -/

/-- What indexing asks of its operands: the elements are of type `e` and not too large, the
registers that the two values hold are in use and none is held by both, and an index in memory is
reached by registers that it holds or the frame pointer. -/
structure Indexable (a : Assembly) (array index : Value) (e : Ty) : Prop where
  element : array.type.element? = some e
  size : e.size ≤ Ty.sizeLimit
  busy : ∀ r ∈ array.held ++ index.held, r ∈ a.busy
  apart : ∀ r ∈ array.held, r ∉ index.held
  closed : index.Closed

theorem Indexable.locates (h : Indexable a array k e) (p : Platform) (s : State)
    (helement : Emit.element (.value array) (.value k) a = .ok v b) :
    ∃ t m hs, Runs p a s b (.ok t) ∧ v = .mem e m hs ∧
      t.address p m = origin p s array + BitVec.ofNat 64 (reading p s k * e.size) := by
  have hsize : e.size < 2 ^ 31 := Nat.lt_of_le_of_lt h.size (by decide)
  obtain ⟨_, ⟨t, m, hs, hruns, -, hv, hx⟩, -⟩ :=
    element_locates p s helement h.element hsize h.busy h.apart h.closed
  exact ⟨t, m, hs, hruns, hv, hx⟩

/-- By indexing one or more times, the code has come to the item `v` in the state `s`, and the
indexes so far lead to the address `x`. -/
inductive Chain (p : Platform) : Assembly → State → Value → Addr → Prop where
  | first {a b : Assembly} {s t : State} {array k v : Value} {e : Ty} (h : Indexable a array k e)
      (helement : Emit.element (.value array) (.value k) a = .ok v b)
      (hruns : Runs p a s b (.ok t)) :
      Chain p b t v (origin p s array + BitVec.ofNat 64 (reading p s k * e.size))
  /-- Other code, such as that of the next index, which leaves the item alone. -/
  | other {a b : Assembly} {s t : State} {v : Value} {x : Addr} (h : Chain p a s v x)
      (hheld : ∀ r ∈ v.held, t.regs r = s.regs r) (hrbp : t.regs .rbp = s.regs .rbp) :
      Chain p b t v x
  /-- One more index: an array is where it is, a pointer is followed. -/
  | next {a b : Assembly} {s t : State} {array k v : Value} {e : Ty} {x : Addr}
      (hchain : Chain p a s array x) (h : Indexable a array k e)
      (helement : Emit.element (.value array) (.value k) a = .ok v b)
      (hruns : Runs p a s b (.ok t)) :
      Chain p b t v ((if array.type.isArray then x else BitVec.ofNat 64 (load s.mem x 8)) +
        BitVec.ofNat 64 (reading p s k * e.size))

theorem Chain.address {x : Addr} (h : Chain p a s v x) :
    v.Closed ∧ ∃ e m hs, v = .mem e m hs ∧ s.address p m = x := by
  induction h with
  | first h helement hruns =>
      obtain ⟨t, m, hs, hruns', rfl, hx⟩ := h.locates p _ helement
      cases hruns.unique hruns'
      exact ⟨(Emit.element_eq_mem helement).1, _, m, hs, rfl, hx⟩
  | other _ hheld hrbp ih =>
      obtain ⟨hclosed, e, m, hs, rfl, rfl⟩ := ih
      exact ⟨hclosed, e, m, hs, rfl, address_eq_of_closed hclosed hheld hrbp⟩
  | next _ h helement hruns ih =>
      obtain ⟨-, _, m₀, hs₀, rfl, rfl⟩ := ih
      obtain ⟨t, m, hs, hruns', rfl, hx⟩ := h.locates p _ helement
      cases hruns.unique hruns'
      exact ⟨(Emit.element_eq_mem helement).1, _, m, hs, rfl, hx⟩

/-- Constant and other indexes address the same elements.  Executed in any state, the code of an
element leads to where the elements start plus the index times the size, modulo 2^64.  So two
indexes that read as the same number, a constant and another, lead to the same address, however
far away that is; and so do all indexes of a chain, one after the other, whatever code stands
between them. -/
theorem indexing_addresses_elements (p : Platform) :
    (∀ a b s array k e v, Indexable a array k e →
      Emit.element (.value array) (.value k) a = .ok v b →
      ∃ t m hs, Runs p a s b (.ok t) ∧ v = .mem e m hs ∧
        t.address p m = origin p s array + BitVec.ofNat 64 (reading p s k * e.size)) ∧
    (∀ a a' b b' s array ty n k e v v', Indexable a array (.const ty n) e →
      Indexable a' array k e → reading p s k = (n % (2 ^ (8 * ty.size) : Nat)).toNat →
      Emit.element (.value array) (.value (.const ty n)) a = .ok v b →
      Emit.element (.value array) (.value k) a' = .ok v' b' →
      ∃ t m hs t' m' hs', Runs p a s b (.ok t) ∧ v = .mem e m hs ∧
        Runs p a' s b' (.ok t') ∧ v' = .mem e m' hs' ∧ t.address p m = t'.address p m') ∧
    ∀ a s v x, Chain p a s v x → ∃ e m hs, v = .mem e m hs ∧ s.address p m = x := by
  refine ⟨fun a b s array k e v h helement => h.locates p s helement,
    fun a a' b b' s array ty n k e v v' h h' hvalue hconst helement => ?_,
    fun a s v x h => h.address.2⟩
  obtain ⟨t, m, hs, hruns, hv, hx⟩ := h.locates p s hconst
  obtain ⟨t', m', hs', hruns', hv', hx'⟩ := h'.locates p s helement
  refine ⟨t, m, hs, t', m', hs', hruns, hv, hruns', hv', ?_⟩
  rw [hx, hx', hvalue, reading]

def tablePlatform : Platform := ⟨fun _ => 0x601000, fun _ _ => 0⟩

/-- Rows of three numbers, 24 bytes each, which no address can scale by. -/
def rows : Value := .mem (.array (.array (.builtin .long) 3) 5) { base := .label "t" } []

def rowAssembly : Assembly := { busy := [.r8] }

/-- The number 200000000 in the low four bytes of `r8`, below other bits. -/
def rowState : State where
  regs := fun r => if r = .r8 then 0xabcd0bebc200 else 0
  mem := fun _ => 0
  output := []

/-- That row, and what is written to reach it. -/
def row : Value :=
  .mem (.array (.builtin .long) 3) { base := .reg .r8, offset := .reg .r9 } [.r8, .r9]

def rowReached : Assembly where
  lines := #[.instr (.lea .r9 { base := .label "t" }),
    .instr (.mov (.reg .r8 .dword) (.reg .r8 .dword)), .instr (.imul .r8 24)]
  busy := [.r8, .r9]

/-- Row 200000000 is too far away for a displacement.  Its number 2, counted from 0, is where it
should be. -/
theorem indexing_addresses_elements_far :
    (∃ v b v' b', Emit.element (.value rows) (.value (.const (.builtin .int) 200000000))
        rowAssembly = .ok v b ∧
      Emit.element (.value rows) (.value (.reg (.builtin .int) .r8)) rowAssembly = .ok v' b' ∧
      ∃ t m hs t' m' hs', Runs tablePlatform rowAssembly rowState b (.ok t) ∧
        v = .mem (.array (.builtin .long) 3) m hs ∧
        Runs tablePlatform rowAssembly rowState b' (.ok t') ∧
        v' = .mem (.array (.builtin .long) 3) m' hs' ∧
        t.address tablePlatform m = t'.address tablePlatform m') ∧
    ∃ a s v, Chain tablePlatform a s v (0x601000 + 24 * 200000000 + 2 * 8) ∧
      ∃ e m hs, v = .mem e m hs ∧
        s.address tablePlatform m = 0x601000 + 24 * 200000000 + 2 * 8 := by
  obtain ⟨hfirst, hsame, hchain⟩ := indexing_addresses_elements tablePlatform
  have hconst : Indexable rowAssembly rows (.const (.builtin .int) 200000000)
      (.array (.builtin .long) 3) := ⟨rfl, by decide, by decide, by decide, trivial⟩
  have hreg : Indexable rowAssembly rows (.reg (.builtin .int) .r8)
      (.array (.builtin .long) 3) := ⟨rfl, by decide, by decide, by decide, trivial⟩
  refine ⟨⟨_, _, _, _, rfl, rfl, hsame _ _ _ _ rowState _ _ _ _ _ _ _ hconst hreg rfl rfl rfl⟩, ?_⟩
  obtain ⟨t, m, hs, hruns, -, -⟩ := hfirst _ rowReached rowState _ _ _ row hreg rfl
  have hnumber : Indexable rowReached row (.const (.builtin .int) 2) (.builtin .long) :=
    ⟨rfl, by decide, by decide, by decide, trivial⟩
  obtain ⟨t', m', hs', hruns', -, -⟩ := hfirst _ _ t _ _ _ _ hnumber rfl
  have helement := (Chain.first hreg rfl hruns).next hnumber rfl hruns'
  exact ⟨_, _, _, helement, hchain _ _ _ _ helement⟩

end Machine

end Tern
