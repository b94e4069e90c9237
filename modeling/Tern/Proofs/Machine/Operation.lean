import Tern.Proofs.Emit.Safety
import Tern.Proofs.Machine.Conversion

/-!
# Operators, executed

The instructions of an operator leave in its result the number that the operator has on
unsigned numbers of the operands' size.  A division by zero stops them, and nothing else does.
-/

namespace Tern

/-- The value of an operator on unsigned numbers of `bytes` bytes, or nothing for a division by
zero.  Results wrap around, and shift counts are cut to six bits, or to five below eight
bytes. -/
def BinaryOp.result? (op : BinaryOp) (bytes x y : Nat) : Option Nat :=
  let count := y % if bytes = 8 then 64 else 32
  match op with
  | .add => some ((x + y) % 2 ^ (8 * bytes))
  | .sub => some ((x + 2 ^ (8 * bytes) - y) % 2 ^ (8 * bytes))
  | .mul => some (x * y % 2 ^ (8 * bytes))
  | .div => if y = 0 then none else some (x / y)
  | .mod => if y = 0 then none else some (x % y)
  | .shl => some (x * 2 ^ count % 2 ^ (8 * bytes))
  | .shr => some (x / 2 ^ count)

theorem BinaryOp.result?_lt {op : BinaryOp} {bytes x y n : Nat} (hx : x < 2 ^ (8 * bytes))
    (h : op.result? bytes x y = some n) : n < 2 ^ (8 * bytes) := by
  have hmod : ∀ k, k % 2 ^ (8 * bytes) < 2 ^ (8 * bytes) := fun k =>
    Nat.mod_lt _ (Nat.two_pow_pos _)
  have hdiv : ∀ k, x / k < 2 ^ (8 * bytes) := fun k => Nat.lt_of_le_of_lt (Nat.div_le_self _ _) hx
  cases op with
  | add | sub | mul | shl =>
      cases h
      exact hmod _
  | shr =>
      cases h
      exact hdiv _
  | div =>
      simp only [result?] at h
      split at h <;> cases h
      exact hdiv y
  | mod =>
      simp only [result?] at h
      split at h <;> cases h
      exact Nat.lt_of_le_of_lt (Nat.mod_le _ _) hx

theorem Ty.wider_self (t : Ty) : t.wider t = t := if_neg (Nat.lt_irrefl _)

theorem Emit.operate_type {op : BinaryOp} {lhs rhs v : Value} {a b : Assembly}
    (h : Compile.operate op lhs rhs a = .ok v b) : v.type = lhs.type.wider rhs.type := by
  unfold Compile.operate at h
  split at h
  · next htype =>
    obtain ⟨r, rfl⟩ := operation_eq_reg h
    rw [← htype, Ty.wider_self]
    rfl
  · simp only [bind_eq_ok, Prod.exists] at h
    obtain ⟨l, r, c, hbalance, h⟩ := h
    obtain ⟨q, rfl⟩ := operation_eq_reg h
    exact (balance_types hbalance).1

namespace Machine

open Assembly

variable {p : Platform} {sp : Addr} {a b c : Assembly} {s t u : State} {r dst : Register}
  {w w' : Width} {v lhs rhs : Value} {o : Operand} {n x y : Nat}

/-! ## Sums and differences -/

theorem toRegister_reaches (h : Emit.toRegister lhs w a = .ok dst b)
    (hown : a.Owns (lhs.held ++ rhs.held)) (hclosed : rhs.Closed)
    (hsize : lhs.type.size = w.bytes) (hx : Holds p sp s lhs x) (hy : Holds p sp s rhs y) :
    ∃ t, Reaches p sp a (lhs.held ++ rhs.held) s b t ∧ t.view dst w = x ∧
      Holds p sp t rhs y := by
  rcases Emit.toRegister_ok h with ⟨ty, rfl, rfl⟩ | ⟨o, ho, hdst, rfl⟩
  · exact ⟨s, .refl, hx.view hsize, hy⟩
  · have hread : s.source p true w o = some x := hx.source ho hsize (.inl rfl)
    have hreaches : Reaches p sp a lhs.held s ((a.occupy dst).extend [.mov (.reg dst w) o])
        (s.set dst w x) := by
      refine ⟨.occupied ?_, Agrees.refl.set (not_kept_free hdst)⟩
      rw [exec_singleton, step_mov hread]
    refine ⟨_, (hreaches.weaken (by simp +contextual)).lines rfl, ?_, ?_⟩
    · rw [State.view_set, Nat.mod_eq_of_lt (hsize ▸ hx.lt)]
    · exact hy.reaches hreaches hclosed hown

theorem additive_reaches {op : Combine} (h : Emit.additive op w lhs rhs a = .ok v b)
    (hpool : a.Pooled) (hown : a.Owns (lhs.held ++ rhs.held)) (hclosed : rhs.Closed)
    (hlsize : lhs.type.size = w.bytes) (hrsize : rhs.type.size = w.bytes)
    (hx : Holds p sp s lhs x) (hy : Holds p sp s rhs y) :
    ∃ t, Reaches p sp a (lhs.held ++ rhs.held) s b t ∧
      Holds p sp t v (combined op w x y % 2 ^ (8 * w.bytes)) := by
  obtain ⟨dst, c, o, hdst, rfl, ho, h⟩ := Emit.additive_ok h
  obtain ⟨t, hreaches, hview, hy⟩ := toRegister_reaches hdst hown hclosed hlsize hx hy
  have htransfer := (Emit.toRegister_transfer hdst hown.left).frame hown
  have hkept : ¬ c.Kept ([dst] ++ rhs.held) dst :=
    (htransfer.pooled hpool hown).not_kept htransfer.owns (by simp)
  rcases h with ⟨tmp, hneeds, htmp, rfl⟩ | ⟨hneeds, rfl⟩
  · -- Only an eight-byte constant needs a register of its own.
    obtain rfl := eq_qword_of_needsRegister hneeds
    have hread : t.source p true .qword o = some y := hy.source ho hrsize (.inl rfl)
    have hne : dst ≠ tmp := by
      rintro rfl
      exact (firstFree?_eq_some htmp).2 (htransfer.owns.busy dst (by simp))
    have hread' : (t.set tmp .qword y).source p false .qword (.reg tmp .qword) = some y := by
      rw [State.source, if_pos rfl, State.view_set, Nat.mod_eq_of_lt (hrsize ▸ hy.lt)]
    have hview' : (t.set tmp .qword y).view dst .qword = x := by
      rw [State.view_set_of_ne hne, hview]
    refine ⟨(t.set tmp .qword y).set dst .qword (combined op .qword x y),
      hreaches.trans htransfer ((Reaches.lines (b := (c.occupy tmp).extend _)
        ⟨.occupied ?_, (Agrees.refl.set (not_kept_free htmp)).set hkept⟩ rfl)),
      Holds.set hlsize⟩
    rw [exec_cons_ok (step_mov hread), exec_singleton, step_combine hread', hview']
  · have hread : t.source p false w o = some y := hy.source ho hrsize (.inr hneeds)
    refine ⟨t.set dst w (combined op w x y), hreaches.trans htransfer
      (Reaches.lines (b := c.extend _) ⟨.extend ?_, Agrees.refl.set hkept⟩ rfl),
      Holds.set hlsize⟩
    rw [exec_singleton, step_combine hread, hview]

/-! ## Shifts -/

/-- The machine looks at fewer bits of a count than a byte has. -/
theorem shifted_mod {dir : Direction} : shifted dir w x (y % 2 ^ 8) = shifted dir w x y := by
  have hcount : ∀ k, k = 64 ∨ k = 32 → y % 2 ^ 8 % k = y % k := by
    rintro k (rfl | rfl) <;> omega
  by_cases hw : w = .qword
  · simp only [shifted, hw, if_true, hcount 64 (.inl rfl)]
  · simp only [shifted, hw, if_false, hcount 32 (.inr rfl)]

theorem vacateCount_reaches (p : Platform) (sp : Addr)
    (h : Emit.vacateCount dst a = .ok r b) (hown : a.Owns [dst]) :
    r ≠ .rcx ∧ ∃ t, Reaches p sp a [dst] s b t ∧ t.view r w = s.view dst w := by
  rcases Emit.vacateCount_ok h with ⟨hne, rfl, rfl⟩ | ⟨rfl, hr, rfl⟩
  · exact ⟨hne, s, .refl, rfl⟩
  · have hne : r ≠ .rcx := by
      rintro rfl
      exact (firstFree?_eq_some hr).2 (hown.busy .rcx (by simp))
    have hread : s.source p true .qword (.reg .rcx .qword) = some (s.view .rcx .qword) := by
      rw [State.source, if_pos rfl]
    refine ⟨hne, s.set r .qword (s.view .rcx .qword), Reaches.lines (b := (a.occupy r).extend _)
      ⟨.occupied ?_, Agrees.refl.set (not_kept_free hr)⟩ rfl, ?_⟩
    · rw [exec_singleton, step_mov hread]
    · have hle : w.bytes ≤ Width.qword.bytes := by cases w <;> decide
      rw [← State.view_mod hle, State.view_set, Nat.mod_eq_of_lt State.view_lt,
        State.view_mod hle]

theorem shiftByCount_reaches {dir : Direction}
    (h : Emit.shiftByCount dir w dst rhs a = .ok r b) (hpool : a.Pooled)
    (hown : a.Owns ([dst] ++ rhs.held)) (hclosed : rhs.Closed) (hconst : rhs.isConst = false)
    (hsize : 1 ≤ rhs.type.size) (hsp : s.regs .rsp = sp) (hx : s.view dst w = x)
    (hy : Holds p sp s rhs y) :
    ∃ t, Reaches p sp a ([dst] ++ rhs.held) s b t ∧
      t.view r w = shifted dir w x y % 2 ^ (8 * w.bytes) := by
  obtain ⟨c, o, hvacate, ho, rfl⟩ := Emit.shiftByCount_ok h
  obtain ⟨hne, t, hfirst, hview⟩ := vacateCount_reaches p sp (w := w) hvacate hown.left
  have htransfer := (Emit.vacateCount_transfer hvacate hown.left).frame hown
  have hpool' : c.Pooled := htransfer.pooled hpool hown
  have hkept : ¬ c.Kept ([r] ++ rhs.held) r := hpool'.not_kept htransfer.owns (by simp)
  have hrsp : r ≠ .rsp := fun heq => hkept (heq ▸ kept_rsp)
  have hsp' : t.regs .rsp = sp := hfirst.rsp.trans hsp
  -- The code between saving and restoring `rcx`.
  have hroom : 8 * [Register.rcx].length ≤ stackRoom := by decide
  have hread := ((hy.reaches hfirst hclosed hown).pushAll (Emit.saved [.rcx] c) hclosed
    hpool' htransfer.owns.right hsp' (saved_room hroom)).count ho hconst hsize
  let u := (t.pushAll (Emit.saved [.rcx] c)).set .rcx .byte (y % 2 ^ 8)
  have hcount : u.view .rcx .byte = y % 2 ^ 8 := by
    rw [State.view_set]
    exact Nat.mod_mod _ _
  have hvalue : u.view r w = x := by
    rw [State.view_set_of_ne hne, State.view, regs_pushAll hrsp, ← State.view, hview, hx]
  have hcode : exec p [.mov (.reg .rcx .byte) o, .shift dir (.reg r w) (.reg .rcx .byte)]
      (t.pushAll (Emit.saved [.rcx] c)) = .ok (u.set r w (shifted dir w x y)) := by
    rw [exec_cons_ok (step_mov hread), exec_singleton]
    change step p u _ = _
    simp only [step, hvalue, hcount, shifted_mod]
  have htouches : Touches [.rcx, r] (t.pushAll (Emit.saved [.rcx] c))
      (u.set r w (shifted dir w x y)) :=
    (Touches.set (by simp)).trans (Touches.set (by simp))
  refine ⟨_, (hfirst.weaken (by simp +contextual)).trans htransfer
    (saved_reaches ?_ (by simp) hroom hsp' hcode htouches ?_), ?_⟩
  · simp only [lines_release, lines_extend, lines_occupyAll, List.map_append,
      List.append_toArray, Array.append_assoc]
  · intro q hq hq'
    rcases List.mem_cons.1 hq with rfl | hq
    · simp
    · exact absurd (List.mem_singleton.1 hq ▸ hq') hkept
  · rw [view_restored (by simp [hne]) hrsp, State.view_set]

theorem shift_reaches {dir : Direction} (h : Emit.shift dir w lhs rhs a = .ok v b)
    (hpool : a.Pooled) (hown : a.Owns (lhs.held ++ rhs.held)) (hclosed : rhs.Closed)
    (hlsize : lhs.type.size = w.bytes) (hrsize : 1 ≤ rhs.type.size) (hsp : s.regs .rsp = sp)
    (hx : Holds p sp s lhs x) (hy : Holds p sp s rhs y) :
    ∃ t, Reaches p sp a (lhs.held ++ rhs.held) s b t ∧
      Holds p sp t v (shifted dir w x y % 2 ^ (8 * w.bytes)) := by
  obtain ⟨dst, c, hdst, hcount⟩ := Emit.shift_ok h
  obtain ⟨t, hreaches, hview, hy⟩ := toRegister_reaches hdst hown hclosed hlsize hx hy
  have htransfer := (Emit.toRegister_transfer hdst hown.left).frame hown
  have hpool' : c.Pooled := htransfer.pooled hpool hown
  rcases hcount with ⟨ty, n, rfl, rfl, rfl⟩ | ⟨hconst, r, rfl, hcount⟩
  · have hkept : ¬ c.Kept ([dst] ++ []) dst := hpool'.not_kept htransfer.owns (by simp)
    have hn : Word.unsigned 1 n = (y % 2 ^ 8 : Nat) := by
      rw [Word.unsigned_eq_emod, hy.1]
      rfl
    have himm : 0 ≤ Word.unsigned 1 n ∧ Word.unsigned 1 n < 2 ^ 8 := by omega
    refine ⟨t.set dst w (shifted dir w x y), hreaches.trans htransfer
      ⟨.extend ?_, Agrees.refl.set hkept⟩, Holds.set hlsize⟩
    rw [exec_singleton]
    simp only [step, if_pos himm, hview]
    rw [hn, Int.toNat_natCast, shifted_mod]
  · obtain ⟨u, hreaches', hview'⟩ := shiftByCount_reaches hcount hpool' htransfer.owns hclosed
      hconst hrsize (hreaches.rsp.trans hsp) hview hy
    exact ⟨u, hreaches.trans htransfer hreaches', holds_reg hview' hlsize⟩

/-! ## Products, quotients and remainders -/

theorem view_rax (h : (s.regs .rax).toNat = x) : s.view .rax w = x % 2 ^ (8 * w.bytes) := by
  rw [State.view, h]

theorem source_unsigned (h : x < 2 ^ (8 * w.bytes)) :
    s.source p true w (.imm (x : Int)) = some x := by
  have hencodable : encodable true w (x : Int) = true := by
    have hcast : ((2 ^ (8 * w.bytes) : Nat) : Int) = 2 ^ (8 * w.bytes) := by simp
    have hneg : (0 : Int) ≤ 2 ^ (8 * w.bytes - 1) := Int.pow_nonneg (by decide)
    simp only [encodable, Bool.true_eq_false, and_false, if_false, Bool.and_eq_true,
      decide_eq_true_eq, ← hcast]
    omega
  have hwrap : wrap w (x : Int) = x := by
    rw [wrap, Int.emod_eq_of_lt (by omega) (by omega), Int.toNat_natCast]
  rw [State.source, if_pos hencodable, hwrap]

theorem fillAccumulator_runs {e : Unit} (h : Emit.fillAccumulator v w a = .ok e b)
    (hsize : v.type.size = w.bytes) (hx : Holds p sp s v x) :
    ∃ t, Runs p a s b (.ok t) ∧ Touches [.rax] s t ∧ (t.regs .rax).toNat = x := by
  have hxlt : x < 2 ^ (8 * w.bytes) := hsize ▸ hx.lt
  rcases Emit.fillAccumulator_ok h with ⟨ty, n, rfl, rfl⟩ | ⟨hconst, hw, o, ho, rfl⟩ |
    ⟨hconst, hw, o, ho, rfl⟩
  · -- A constant is moved to the whole register, or to four bytes, which clears the rest.
    let full : Width := if w = .qword then .qword else .dword
    have hfull : w.bytes ≤ full.bytes ∧ 4 ≤ full.bytes := by
      cases w <;> simp [full, Width.bytes]
    have hlt : x < 2 ^ (8 * full.bytes) :=
      Nat.lt_of_lt_of_le hxlt (Nat.pow_le_pow_right (by decide) (by omega))
    have hn : Word.unsigned w.bytes n = (x : Int) := by
      rw [Word.unsigned_eq_emod, hx.1]
      exact Int.emod_eq_of_lt (by omega) (by omega)
    refine ⟨s.set .rax full x, .extend ?_, .set (by simp), ?_⟩
    · rw [exec_singleton, hn]
      exact step_mov (source_unsigned hlt)
    · rw [State.toNat_regs_set hfull.2, Nat.mod_eq_of_lt hlt]
  · have hlt : x < 2 ^ (8 * Width.dword.bytes) :=
      Nat.lt_of_lt_of_le hxlt (Nat.pow_le_pow_right (by decide) (by
        change 8 * w.bytes ≤ 8 * 4
        omega))
    refine ⟨s.set .rax .dword x, .extend ?_, .set (by simp), ?_⟩
    · rw [exec_singleton]
      exact step_movzx hx ho hsize hconst hw hw
    · rw [State.toNat_regs_set (by decide), Nat.mod_eq_of_lt hlt]
  · refine ⟨s.set .rax w x, .extend ?_, .set (by simp), ?_⟩
    · rw [exec_singleton]
      exact step_mov (hx.source ho hsize (.inl rfl))
    · rw [State.toNat_regs_set hw, Nat.mod_eq_of_lt hxlt]

/-- The staged operand is in a register of its own, or where it was and not in `rdx`. -/
theorem stage_runs {f : Value} {staged : List Register}
    (h : Emit.stage v w a = .ok (f, staged) b) (hsize : v.type.size = w.bytes)
    (hclosed : v.Closed) (hy : Holds p sp s v y) :
    (∃ t, Runs p a s b (.ok t) ∧ Touches staged s t ∧ Holds p sp t f y) ∧ f.Closed ∧
      f.isConst = false ∧ f.type = v.type ∧ (∀ q ∈ staged, a.firstFree? = some q) ∧
      ∀ q ∈ f.held, q ∈ staged ∨ q ∈ v.held ∧ q ≠ .rdx := by
  rcases Emit.stage_ok h with ⟨-, tmp, o, htmp, ho, rfl, rfl, rfl⟩ | ⟨hconst, hrdx, rfl, rfl, rfl⟩
  · refine ⟨⟨s.set tmp w y, .occupied ?_, .set (by simp), ?_⟩, trivial, rfl, rfl, ?_, ?_⟩
    · rw [exec_singleton]
      exact step_mov (hy.source ho hsize (.inl rfl))
    · refine holds_reg ?_ hsize
      rw [State.view_set, Nat.mod_eq_of_lt (hsize ▸ hy.lt)]
    · intro q hq
      rw [List.mem_singleton.1 hq]
      exact htmp
    · exact fun q hq => .inl hq
  · refine ⟨⟨s, .refl, .refl, hy⟩, hclosed, hconst, rfl, by simp, fun q hq => .inr ⟨hq, ?_⟩⟩
    rintro rfl
    exact hrdx hq

/-- The operations of the accumulator on unsigned numbers of `bytes` bytes. -/
def wideResult (op : Emit.WideOp) (bytes x y : Nat) : Option Nat :=
  match op with
  | .product => some (x * y % 2 ^ (8 * bytes))
  | .quotient => if y = 0 then none else some (x / y)
  | .remainder => if y = 0 then none else some (x % y)

theorem view_byte_of_word : s.view r .word % 2 ^ (8 * Width.byte.bytes) = s.view r .byte :=
  State.view_mod (by decide)

theorem touches_multiply : Touches [.rax, .rdx] s (s.multiply w y) := by
  unfold State.multiply
  by_cases hw : w = .byte
  · simp only [hw, if_true]
    exact .set (by simp)
  · simp only [hw, if_false]
    exact (Touches.set (by simp)).trans (.set (by simp))

theorem view_multiply (hx : s.view .rax w = x) :
    (s.multiply w y).view .rax w = x * y % 2 ^ (8 * w.bytes) := by
  unfold State.multiply
  by_cases hw : w = .byte
  · subst hw
    rw [if_pos rfl, hx, ← view_byte_of_word, State.view_set]
    exact Nat.mod_mod_of_dvd _ (by decide)
  · rw [if_neg hw, State.view_set_of_ne (by decide), State.view_set, hx]

/-- The accumulator alone is divided: for a byte its high half is zero, otherwise `rdx` is. -/
theorem dividend_eq (hx : (s.regs .rax).toNat = x) (hxlt : x < 2 ^ (8 * w.bytes))
    (hrdx : w = .byte ∨ s.view .rdx w = 0) : s.dividend w = x := by
  unfold State.dividend
  by_cases hw : w = .byte
  · rw [if_pos hw, view_rax hx]
    apply Nat.mod_eq_of_lt
    calc
      x < 2 ^ (8 * w.bytes) := hxlt
      _ ≤ 2 ^ (8 * Width.word.bytes) := by
        rw [hw]
        decide
  · rw [if_neg hw, hrdx.resolve_left hw, view_rax hx, Nat.zero_mul, Nat.zero_add,
      Nat.mod_eq_of_lt hxlt]

/-- A byte division leaves the remainder in `ah`. -/
theorem divide_byte {q m : Nat} (hq : q < 2 ^ 8) (hm : m < 2 ^ 8) :
    (s.set .rax .word (q + 2 ^ 8 * m)).view .rax .byte = q ∧
      (s.set .rax .word (q + 2 ^ 8 * m)).source p true .byte .ah = some m := by
  have hview : (s.set .rax .word (q + 2 ^ 8 * m)).view .rax .word = q + 2 ^ 8 * m := by
    rw [State.view_set]
    apply Nat.mod_eq_of_lt
    change _ < 2 ^ 16
    omega
  constructor
  · rw [← view_byte_of_word, hview]
    change _ % 2 ^ 8 = _
    omega
  · have hregs : ((s.set .rax .word (q + 2 ^ 8 * m)).regs .rax).toNat % 2 ^ 16 =
        q + 2 ^ 8 * m := hview
    rw [State.source, if_pos rfl]
    congr 1
    omega

theorem divide_exec (hx : (s.regs .rax).toNat = x) (hxlt : x < 2 ^ (8 * w.bytes))
    (hrdx : w = .byte ∨ s.view .rdx w = 0) :
    if y = 0 then s.divide w y = .error ⟨.divideError, s⟩
    else ∃ t, s.divide w y = .ok t ∧ Touches [.rax, .rdx] s t ∧ t.view .rax w = x / y ∧
      exec p [Emit.remainderCode w] t = .ok (t.set .rax w (x % y)) := by
  have hdividend := dividend_eq hx hxlt hrdx
  by_cases hy : y = 0
  · rw [if_pos hy, State.divide, if_pos (.inl hy)]
    rfl
  · have hquotient : x / y < 2 ^ (8 * w.bytes) := Nat.lt_of_le_of_lt (Nat.div_le_self _ _) hxlt
    have hremainder : x % y < 2 ^ (8 * w.bytes) := Nat.lt_of_le_of_lt (Nat.mod_le _ _) hxlt
    have hok : ¬ (y = 0 ∨ 2 ^ (8 * w.bytes) ≤ x / y) := by omega
    rw [if_neg hy]
    unfold State.divide
    rw [hdividend, if_neg hok]
    generalize x / y = q at hquotient ⊢
    generalize x % y = m at hremainder ⊢
    by_cases hw : w = .byte
    · subst hw
      obtain ⟨hview, hah⟩ := divide_byte (p := p) (s := s) hquotient hremainder
      refine ⟨s.set .rax .word (q + 2 ^ 8 * m), if_pos rfl, .set (by simp), hview, ?_⟩
      rw [exec_singleton, Emit.remainderCode, if_pos rfl, step_mov hah]
    · let t := (s.set .rax w q).set .rdx w m
      refine ⟨t, if_neg hw, (Touches.set (by simp)).trans (.set (by simp)), ?_, ?_⟩
      · rw [State.view_set_of_ne (by decide), State.view_set, Nat.mod_eq_of_lt hquotient]
      · have hread : t.source p true w (.reg .rdx w) = some m := by
          rw [State.source, if_pos rfl, State.view_set, Nat.mod_eq_of_lt hremainder]
        rw [exec_singleton, Emit.remainderCode, if_neg hw, step_mov hread]

def State.cleared (s : State) (w : Width) : State := if w = .byte then s else s.set .rdx .dword 0

theorem touches_cleared : Touches [.rdx] s (s.cleared w) := by
  unfold State.cleared
  by_cases hw : w = .byte
  · rw [if_pos hw]
    exact .refl
  · rw [if_neg hw]
    exact .set (by simp)

theorem divideCode_exec (hy : Holds p sp s v y) (ho : v.SpeltSized w o)
    (hsize : v.type.size = w.bytes) (hconst : v.isConst = false) (hclosed : v.Closed)
    (hrdx : .rdx ∉ v.held) :
    exec p (Emit.divideCode w o) s = (s.cleared w).divide w y := by
  have hy' : Holds p sp (s.cleared w) v y := by
    refine hy.touches touches_cleared hclosed (fun q hq => ?_) (by decide)
    rw [List.mem_singleton]
    rintro rfl
    exact hrdx hq
  have hdiv := step_div hy' ho hsize hconst
  by_cases hw : w = .byte
  · rw [Emit.divideCode, if_pos hw, exec_singleton]
    simpa only [State.cleared, if_pos hw] using hdiv
  · have hself : s.source p false .dword (.reg .rdx .dword) = some (s.view .rdx .dword) := by
      rw [State.source, if_pos rfl]
    have hclear : combined .xor .dword (s.view .rdx .dword) (s.view .rdx .dword) = 0 :=
      Nat.xor_self _
    rw [Emit.divideCode, if_neg hw, exec_cons_ok (step_combine hself), hclear, exec_singleton]
    simpa only [State.cleared, if_neg hw] using hdiv

theorem accumulate_exec (op : Emit.WideOp) (hy : Holds p sp s v y) (ho : v.SpeltSized w o)
    (hsize : v.type.size = w.bytes) (hconst : v.isConst = false) (hclosed : v.Closed)
    (hrdx : .rdx ∉ v.held) (hx : (s.regs .rax).toNat = x) (hxlt : x < 2 ^ (8 * w.bytes)) :
    match wideResult op w.bytes x y with
    | some n => ∃ t, exec p (Emit.accumulateCode op w o) s = .ok t ∧
        Touches [.rax, .rdx] s t ∧ t.view .rax w = n
    | none => ∃ t, exec p (Emit.accumulateCode op w o) s = .error ⟨.divideError, t⟩ ∧
        Touches [.rax, .rdx] s t := by
  have hcleared : Touches [.rax, .rdx] s (s.cleared w) := touches_cleared.mono (by simp)
  have hzero : w = .byte ∨ (s.cleared w).view .rdx w = 0 := by
    by_cases hw : w = .byte
    · exact .inl hw
    · right
      rw [State.cleared, if_neg hw, State.view, State.toNat_regs_set (by decide), Nat.zero_mod,
        Nat.zero_mod]
  have hcode := divideCode_exec hy ho hsize hconst hclosed hrdx
  have hdivide := divide_exec (p := p) (y := y)
    ((congrArg _ (touches_cleared.regs .rax (by decide))).trans hx) hxlt hzero
  cases op with
  | product =>
      refine ⟨s.multiply w y, ?_, touches_multiply, view_multiply ?_⟩
      · rw [Emit.accumulateCode, exec_singleton, step_mul hy ho hsize hconst]
      · rw [view_rax hx, Nat.mod_eq_of_lt hxlt]
  | quotient =>
      by_cases hy0 : y = 0
      · rw [if_pos hy0] at hdivide
        simp only [wideResult, hy0, if_true]
        exact ⟨s.cleared w, hcode.trans hdivide, hcleared⟩
      · rw [if_neg hy0] at hdivide
        obtain ⟨t, hok, htouches, hview, -⟩ := hdivide
        simp only [wideResult, hy0, if_false]
        exact ⟨t, hcode.trans hok, hcleared.trans htouches, hview⟩
  | remainder =>
      by_cases hy0 : y = 0
      · rw [if_pos hy0] at hdivide
        simp only [wideResult, hy0, if_true]
        exact ⟨s.cleared w, exec_append_error (hcode.trans hdivide), hcleared⟩
      · rw [if_neg hy0] at hdivide
        obtain ⟨t, hok, htouches, -, hremainder⟩ := hdivide
        simp only [wideResult, hy0, if_false]
        refine ⟨t.set .rax w (x % y), ?_, (hcleared.trans htouches).trans (.set (by simp)), ?_⟩
        · rw [Emit.accumulateCode, exec_append_ok (hcode.trans hok), hremainder]
        · rw [State.view_set, Nat.mod_eq_of_lt (Nat.lt_of_le_of_lt (Nat.mod_le _ _) hxlt)]

/-- The instructions from `a` to `b` leave the number `result` in the value `v`, or are stopped
by a division where there is no result. -/
def Yields (p : Platform) (sp : Addr) (a : Assembly) (used : List Register) (s : State)
    (b : Assembly) (v : Value) (result : Option Nat) : Prop :=
  match result with
  | some n => ∃ t, Reaches p sp a used s b t ∧ Holds p sp t v n
  | none => Faults p sp a s b

theorem Reaches.yields {used made : List Register} {result : Option Nat}
    (h : Reaches p sp a used s b t) (htransfer : a.Transfer used b made)
    (h' : Yields p sp b made t c v result) : Yields p sp a used s c v result := by
  cases result with
  | none => exact h.faults h'
  | some n =>
      obtain ⟨u, hreaches, hholds⟩ := h'
      exact ⟨u, h.trans htransfer hreaches, hholds⟩

theorem rax_not_mem_pool : Register.rax ∉ Register.pool := by decide

/-- Both operands of a wide operation in position: the left one in the accumulator, the right
one out of the way of `rdx`. -/
theorem operands_run {f : Value} {staged : List Register} {e : Unit}
    (hstage : Emit.stage rhs w a = .ok (f, staged) b)
    (hfill : Emit.fillAccumulator lhs w b = .ok e c) (hl : lhs.Closed) (hr : rhs.Closed)
    (hlsize : lhs.type.size = w.bytes) (hrsize : rhs.type.size = w.bytes)
    (hlheld : ∀ q ∈ lhs.held, q ∈ a.busy) (hrheld : ∀ q ∈ rhs.held, q ∈ Register.pool)
    (hrdx : .rdx ∈ a.busy) (hx : Holds p sp s lhs x) (hy : Holds p sp s rhs y) :
    (∃ t, Runs p a s c (.ok t) ∧ Touches (.rax :: staged) s t ∧ Holds p sp t f y ∧
      (t.regs .rax).toNat = x) ∧
    f.Closed ∧ f.isConst = false ∧ f.type = rhs.type ∧ .rdx ∉ f.held ∧
      ∀ q ∈ staged, q ∈ Register.pool ∧ q ∉ a.busy := by
  obtain ⟨⟨t, hruns, htouches, hf⟩, hfclosed, hfconst, hftype, hfree, hfheld⟩ :=
    stage_runs hstage hrsize hr hy
  have hstaged : ∀ q ∈ staged, q ∈ Register.pool ∧ q ∉ a.busy :=
    fun q hq => firstFree?_eq_some (hfree q hq)
  have hbp : Register.rbp ∉ staged := fun hq => absurd (hstaged _ hq).1 (by decide)
  have hx' : Holds p sp t lhs x :=
    hx.touches htouches hl (fun q hq hq' => (hstaged q hq').2 (hlheld q hq)) hbp
  obtain ⟨u, hruns', htouches', hrax⟩ := fillAccumulator_runs hfill hlsize hx'
  have hfrax : ∀ q ∈ f.held, q ∉ [Register.rax] := by
    intro q hq
    rw [List.mem_singleton]
    rintro rfl
    rcases hfheld _ hq with hq | ⟨hq, -⟩
    · exact rax_not_mem_pool (hstaged _ hq).1
    · exact rax_not_mem_pool (hrheld _ hq)
  refine ⟨⟨u, hruns.trans hruns', ?_, hf.touches htouches' hfclosed hfrax (by decide), hrax⟩,
    hfclosed, hfconst, hftype, ?_, hstaged⟩
  · exact (htouches.mono (by simp +contextual)).trans (htouches'.mono (by simp))
  · intro hq
    rcases hfheld _ hq with hq | ⟨-, hne⟩
    · exact (hstaged _ hq).2 hrdx
    · exact hne rfl

theorem Reaches.moved {used : List Register} {dst : Register} {ty : Ty}
    (h : Reaches p sp a used s b u) (hkept : ¬ a.Kept used dst) (hview : u.view .rax w = x)
    (hsize : ty.size = w.bytes) :
    ∃ t, Reaches p sp a used s
        ((b.occupy dst).extend [.mov (.reg dst w) (.reg .rax w)]) t ∧
      Holds p sp t (.reg ty dst) x := by
  have hread : u.source p true w (.reg .rax w) = some x := by
    rw [State.source, if_pos rfl, hview]
  have hx : x < 2 ^ (8 * w.bytes) := hview ▸ State.view_lt
  refine ⟨u.set dst w x, ⟨h.runs.trans (.occupied ?_), h.agrees.set hkept⟩, ?_⟩
  · rw [exec_singleton, step_mov hread]
  · refine holds_reg ?_ hsize
    rw [State.view_set, Nat.mod_eq_of_lt hx]

theorem wide_yields {op : Emit.WideOp} (h : Emit.wide op w lhs rhs a = .ok v b)
    (hpool : a.Pooled) (hown : a.Owns (lhs.held ++ rhs.held)) (hl : lhs.Closed)
    (hr : rhs.Closed) (hlsize : lhs.type.size = w.bytes) (hrsize : rhs.type.size = w.bytes)
    (hsp : s.regs .rsp = sp) (hx : Holds p sp s lhs x) (hy : Holds p sp s rhs y) :
    Yields p sp a (lhs.held ++ rhs.held) s b v (wideResult op w.bytes x y) := by
  have htransfer := Emit.wide_transfer h
  obtain ⟨f, staged, c, d, o, dst, e, hstage, hfill, ho, he, hdst, rfl, rfl⟩ := Emit.wide_ok h
  have hroom : 8 * [Register.rax, .rdx].length ≤ stackRoom := by decide
  have hlen : 8 * (Emit.saved [.rax, .rdx] a).length ≤ stackRoom := saved_room hroom
  obtain ⟨⟨t, ⟨code, hlines, hexec⟩, htouches, hf, hrax⟩, hfclosed, hfconst, hftype, hfrdx,
      hstaged⟩ := operands_run hstage hfill hl hr hlsize hrsize
    (fun q hq => by simp [hown.left.busy q hq]) (fun q hq => hpool q (hown.right.busy q hq))
    (by by_cases hbusy : Register.rdx ∈ a.busy <;> simp [hbusy])
    (hx.pushAll _ hl hpool hown.left hsp hlen) (hy.pushAll _ hr hpool hown.right hsp hlen)
  simp only [mem_busy_occupyAll, busy_extend, not_or] at hstaged
  rw [lines_occupyAll, lines_extend] at hlines
  have haccumulate := accumulate_exec op hf ho (hftype ▸ hrsize) hfconst hfclosed hfrdx hrax
    (hlsize ▸ hx.lt)
  have helines : e.lines = a.lines ++ (((Emit.saved [.rax, .rdx] a).map Instr.push ++
      (code ++ Emit.accumulateCode op w o) ++
      (Emit.saved [.rax, .rdx] a).reverse.map Instr.pop).map Line.instr).toArray := by
    simp [he, hlines, Array.append_assoc]
  have htouched {u : State} (htouches' : Touches [.rax, .rdx] t u) :
      Touches (.rax :: .rdx :: staged) (s.pushAll (Emit.saved [.rax, .rdx] a)) u :=
    (htouches.mono (by grind)).trans (htouches'.mono (by simp +contextual))
  cases hresult : wideResult op w.bytes x y with
  | none =>
      rw [hresult] at haccumulate
      obtain ⟨u, hexec', htouches'⟩ := haccumulate
      have hbody : exec p (code ++ Emit.accumulateCode op w o)
          (s.pushAll (Emit.saved [.rax, .rdx] a)) = .error ⟨.divideError, u⟩ := by
        rw [exec_append_ok hexec, hexec']
      have hfaults := saved_faults helines hroom hsp hbody (htouched htouches')
      exact hfaults.stopped (.of_lines [.mov (.reg dst w) (.reg .rax w)] (by simp))
  | some n =>
      rw [hresult] at haccumulate
      obtain ⟨u, hexec', htouches', hview⟩ := haccumulate
      have hbody : exec p (code ++ Emit.accumulateCode op w o)
          (s.pushAll (Emit.saved [.rax, .rdx] a)) = .ok u := by
        rw [exec_append_ok hexec, hexec']
      have hreaches : Reaches p sp a (lhs.held ++ rhs.held) s e
          (u.restored (Emit.saved [.rax, .rdx] a) s) := by
        refine saved_reaches helines (by simp) hroom hsp hbody (htouched htouches')
          fun q hq hkept => ?_
        rcases List.mem_cons.1 hq with rfl | hq
        · simp
        · rcases List.mem_cons.1 hq with rfl | hq
          · simp
          · exact absurd hkept
              (not_kept (hstaged q hq).1 fun hbusy => absurd hbusy (hstaged q hq).2.1)
      have hsaved : .rax ∉ Emit.saved [.rax, .rdx] a := fun hq =>
        rax_not_mem_pool (hpool _ (Emit.mem_saved.1 hq).2)
      have hkept : ¬ a.Kept (lhs.held ++ rhs.held) dst :=
        not_kept (firstFree?_eq_some hdst).1 (htransfer.apart dst (by simp [Value.held]))
      exact hreaches.moved hkept ((view_restored hsaved (by decide)).trans hview) hlsize

/-! ## All operators -/

theorem operation_yields {op : BinaryOp} (h : Emit.operation op lhs rhs a = .ok v b)
    (hpool : a.Pooled) (hown : a.Owns (lhs.held ++ rhs.held)) (hl : lhs.Closed)
    (hr : rhs.Closed) (hsp : s.regs .rsp = sp) (hx : Holds p sp s lhs x)
    (hy : Holds p sp s rhs y) :
    Yields p sp a (lhs.held ++ rhs.held) s b v (op.result? lhs.type.size x y) := by
  obtain ⟨w, hlsize, hrsize, h⟩ := Emit.operation_ok h
  have hcount : (if w = .qword then 64 else 32) = if w.bytes = 8 then 64 else 32 := by
    cases w <;> rfl
  rw [hlsize]
  cases op with
  | add => exact additive_reaches h hpool hown hr hlsize hrsize hx hy
  | sub => exact additive_reaches h hpool hown hr hlsize hrsize hx hy
  | mul => exact wide_yields h hpool hown hl hr hlsize hrsize hsp hx hy
  | div => exact wide_yields h hpool hown hl hr hlsize hrsize hsp hx hy
  | mod => exact wide_yields h hpool hown hl hr hlsize hrsize hsp hx hy
  | shl =>
      have hsize : 1 ≤ rhs.type.size := by rw [hrsize]; cases w <;> decide
      have hreaches := shift_reaches h hpool hown hr hlsize hsize hsp hx hy
      rwa [shifted, hcount] at hreaches
  | shr =>
      have hsize : 1 ≤ rhs.type.size := by rw [hrsize]; cases w <;> decide
      have hreaches := shift_reaches h hpool hown hr hlsize hsize hsp hx hy
      rwa [shifted, hcount, Nat.mod_eq_of_lt
        (Nat.lt_of_le_of_lt (Nat.div_le_self _ _) (hlsize ▸ hx.lt))] at hreaches

theorem operate_yields {op : BinaryOp} (h : Compile.operate op lhs rhs a = .ok v b)
    (hadmits : lhs.type.admitsWith op rhs.type = true) (hpool : a.Pooled)
    (hown : a.Owns (lhs.held ++ rhs.held)) (hl : lhs.Closed) (hr : rhs.Closed)
    (hsp : s.regs .rsp = sp) (hx : Holds p sp s lhs x) (hy : Holds p sp s rhs y) :
    Yields p sp a (lhs.held ++ rhs.held) s b v
      (op.result? (lhs.type.wider rhs.type).size x y) := by
  unfold Compile.operate at h
  split at h
  · next htype =>
    rw [← htype, Ty.wider_self]
    exact operation_yields h hpool hown hl hr hsp hx hy
  · simp only [bind_eq_ok, Prod.exists] at h
    obtain ⟨l, r, c, hbalance, h⟩ := h
    obtain ⟨⟨w, hw⟩, ⟨w', hw'⟩⟩ := Emit.admitsWith_widths hadmits
    obtain ⟨t, hreaches, hx', hy'⟩ := balance_reaches hbalance hpool hown hl hr hw hw' hx hy
    have htransfer := Emit.balance_transfer hbalance hown
    obtain ⟨hl', hr'⟩ := Emit.balance_closed hbalance hl hr
    rw [← (Emit.balance_types hbalance).1]
    exact hreaches.yields htransfer (operation_yields h (htransfer.pooled hpool hown)
      htransfer.owns hl' hr' (hreaches.rsp.trans hsp) hx' hy')

end Machine

end Tern
