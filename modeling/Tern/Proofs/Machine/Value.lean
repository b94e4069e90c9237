import Tern.Proofs.Emit.Ownership
import Tern.Proofs.Machine.Semantics

/-!
# Values in a state of the machine

When a value of the compiler holds a number in a state of the machine, and which states it
cannot tell apart.  The bytes right below the stack pointer belong to the instructions that
save registers there, so no value may lie in them.
-/

namespace Tern

theorem Width.bytes_inj {w w' : Width} (h : w.bytes = w'.bytes) : w = w' := by
  have hw := Width.ofBytes?_eq_some_iff.2 h
  rw [Width.ofBytes?_eq_some_iff.2 rfl] at hw
  exact Option.some.inj hw

/-! ## Constants as immediates -/

namespace Word

theorem modulus_eq (bytes : Nat) : modulus bytes = 2 ^ (8 * bytes) := Nat.one_shiftLeft _

theorem unsigned_eq_emod (bytes : Nat) (v : Int) :
    unsigned bytes v = v % (2 ^ (8 * bytes) : Nat) := by
  rw [unsigned, modulus_eq]
  split
  · next h =>
    obtain ⟨hnonneg, hlog⟩ := h
    have hlt : v.toNat < 2 ^ (8 * bytes) := by
      by_cases hzero : v.toNat = 0
      · rw [hzero]
        exact Nat.two_pow_pos _
      · exact (Nat.log2_lt hzero).1 hlog
    rw [Int.emod_eq_of_lt hnonneg]
    omega
  · rfl

theorem unsigned_nonneg (bytes : Nat) (v : Int) : 0 ≤ unsigned bytes v := by
  rw [unsigned_eq_emod]
  exact Int.emod_nonneg _ (by have := Nat.two_pow_pos (8 * bytes); omega)

theorem unsigned_lt (bytes : Nat) (v : Int) :
    unsigned bytes v < (2 ^ (8 * bytes) : Nat) := by
  rw [unsigned_eq_emod]
  exact Int.emod_lt_of_pos _ (by have := Nat.two_pow_pos (8 * bytes); omega)

theorem signed_eq_bmod {bytes : Nat} (v : Int) :
    signed bytes v = v.bmod (2 ^ (8 * bytes)) := by
  rw [signed, modulus_eq]
  split
  · next h =>
    have hpow : 2 ^ (8 * bytes - 1) * 2 = 2 ^ (8 * bytes) :=
      Nat.two_pow_pred_mul_two (by omega)
    have hlt : v.natAbs < 2 ^ (8 * bytes - 1) := by
      by_cases hzero : v.natAbs = 0
      · rw [hzero]
        exact Nat.two_pow_pos _
      · exact (Nat.log2_lt hzero).1 (by omega)
    rw [Int.bmod_eq_of_le] <;> omega
  · rfl

theorem signed_mod (bytes : Nat) (v : Int) :
    signed bytes v % (2 ^ (8 * bytes) : Nat) = v % (2 ^ (8 * bytes) : Nat) := by
  rw [signed_eq_bmod, Int.bmod_emod]

theorem signed_bounds {bytes : Nat} (h : 0 < bytes) (v : Int) :
    -(2 ^ (8 * bytes - 1)) ≤ signed bytes v ∧ signed bytes v < 2 ^ (8 * bytes - 1) := by
  have hpow : 2 ^ (8 * bytes - 1) * 2 = 2 ^ (8 * bytes) :=
    Nat.two_pow_pred_mul_two (by omega)
  have hlow := Int.le_bmod (x := v) (Nat.two_pow_pos (8 * bytes))
  have hhigh := Int.bmod_lt (x := v) (Nat.two_pow_pos (8 * bytes))
  have hcast : ((2 ^ (8 * bytes - 1) : Nat) : Int) = 2 ^ (8 * bytes - 1) := by simp
  rw [signed_eq_bmod, ← hcast]
  omega

end Word

namespace Machine

variable {p : Platform} {sp : Addr} {s t u : State} {r : Register} {w : Width} {n : Nat}

theorem wrap_signed {c : Int} (hc : c = n) (hn : n < 2 ^ (8 * w.bytes)) :
    wrap w (Word.signed w.bytes c) = n := by
  rw [wrap, Word.signed_mod, hc]
  have hmod : (n : Int) % (2 ^ (8 * w.bytes) : Nat) = n := by
    apply Int.emod_eq_of_lt <;> omega
  rw [hmod, Int.toNat_natCast]

theorem encodable_signed (c : Int) : encodable true w (Word.signed w.bytes c) = true := by
  have hpos : 0 < w.bytes := by cases w <;> decide
  obtain ⟨hlow, hhigh⟩ := Word.signed_bounds hpos c
  have hle : (2 : Int) ^ (8 * w.bytes - 1) ≤ 2 ^ (8 * w.bytes) := by cases w <;> decide
  simp only [encodable, Bool.true_eq_false, and_false, if_false, Bool.and_eq_true,
    decide_eq_true_eq]
  omega

theorem encodable_of_needsRegister {ty : Ty} {c : Int}
    (h : Emit.needsRegister (.const ty c) w = false) :
    encodable false w (Word.signed w.bytes c) = true := by
  by_cases hw : w = .qword
  · subst hw
    have hfits : Word.fitsSigned32 c = true := by simpa [Emit.needsRegister] using h
    exact hfits
  · have h := encodable_signed (w := w) c
    simpa [encodable, hw] using h

theorem eq_qword_of_needsRegister {v : Value} (h : Emit.needsRegister v w = true) :
    w = .qword := by
  cases v with
  | reg | mem => cases h
  | const ty c =>
      rw [Emit.needsRegister, Bool.and_eq_true, beq_iff_eq] at h
      exact h.1

/-! ## The stack -/

/-- The bytes below the stack pointer that saving six registers takes. -/
def stackRoom : Nat := 48

/-- The byte at `x` is not one that saving registers below `sp` overwrites. -/
def Sheltered (sp x : Addr) : Prop := (x - sp).toNat < 2 ^ 64 - stackRoom

instance (sp x : Addr) : Decidable (Sheltered sp x) :=
  inferInstanceAs (Decidable ((x - sp).toNat < 2 ^ 64 - stackRoom))

def ShelteredAt (sp a : Addr) (k : Nat) : Prop := ∀ i < k, Sheltered sp (a + BitVec.ofNat 64 i)

instance (sp a : Addr) (k : Nat) : Decidable (ShelteredAt sp a k) :=
  inferInstanceAs (Decidable (∀ i < k, Sheltered sp (a + BitVec.ofNat 64 i)))

/-- `t` differs from `s` at most in registers outside `keep` and in bytes that are not
sheltered. -/
structure Agrees (keep : Register → Prop) (sp : Addr) (s t : State) : Prop where
  regs : ∀ r, keep r → t.regs r = s.regs r
  mem : ∀ x, Sheltered sp x → t.mem x = s.mem x
  output : t.output = s.output

namespace Agrees

variable {keep keep' : Register → Prop}

theorem refl : Agrees keep sp s s := ⟨fun _ _ => rfl, fun _ _ => rfl, rfl⟩

theorem trans (h : Agrees keep sp s t) (h' : Agrees keep sp t u) : Agrees keep sp s u where
  regs r hr := (h'.regs r hr).trans (h.regs r hr)
  mem x hx := (h'.mem x hx).trans (h.mem x hx)
  output := h'.output.trans h.output

theorem mono (h : Agrees keep sp s t) (hkeep : ∀ r, keep' r → keep r) : Agrees keep' sp s t :=
  ⟨fun r hr => h.regs r (hkeep r hr), h.mem, h.output⟩

theorem set (h : Agrees keep sp s t) (hr : ¬ keep r) : Agrees keep sp s (t.set r w n) := by
  refine ⟨fun q hq => ?_, h.mem, h.output⟩
  have hne : q ≠ r := fun heq => hr (heq ▸ hq)
  rw [State.regs_set_of_ne hne]
  exact h.regs q hq

theorem load {a : Addr} {k : Nat} (h : Agrees keep sp s t) (ha : ShelteredAt sp a k) :
    Machine.load t.mem a k = Machine.load s.mem a k :=
  load_congr fun i hi => h.mem _ (ha i hi)

end Agrees

/-- `t` differs from `s` in the registers `rs` only. -/
structure Touches (rs : List Register) (s t : State) : Prop where
  regs : ∀ r, r ∉ rs → t.regs r = s.regs r
  mem : t.mem = s.mem
  output : t.output = s.output

namespace Touches

variable {rs qs : List Register}

theorem refl : Touches rs s s := ⟨fun _ _ => rfl, rfl, rfl⟩

theorem trans (h : Touches rs s t) (h' : Touches rs t u) : Touches rs s u where
  regs r hr := (h'.regs r hr).trans (h.regs r hr)
  mem := h'.mem.trans h.mem
  output := h'.output.trans h.output

theorem mono (h : Touches rs s t) (hsub : ∀ r ∈ rs, r ∈ qs) : Touches qs s t :=
  ⟨fun r hr => h.regs r fun hr' => hr (hsub r hr'), h.mem, h.output⟩

theorem set (hr : r ∈ rs) : Touches rs s (s.set r w n) :=
  ⟨fun _ hq => State.regs_set_of_ne fun heq => hq (heq ▸ hr), rfl, rfl⟩

theorem agrees {keep : Register → Prop} (h : Touches rs s t) (hkeep : ∀ r, keep r → r ∉ rs) :
    Agrees keep sp s t :=
  ⟨fun r hr => h.regs r (hkeep r hr), fun x _ => congrFun h.mem x, h.output⟩

end Touches

/-! ## Values -/

/-- A value in memory stays where it is as long as the registers that it holds and the frame
pointer do not change. -/
theorem address_eq_of_closed {ty : Ty} {m : Address} {hs : List Register}
    (hclosed : (Value.mem ty m hs).Closed) (hheld : ∀ r ∈ hs, t.regs r = s.regs r)
    (hrbp : t.regs .rbp = s.regs .rbp) : t.address p m = s.address p m := by
  apply State.address_congr
  intro r hr
  rcases hclosed r hr with rfl | hr
  · exact hrbp
  · exact hheld r hr

/-- The number in a value, read without a sign at the width of its type. -/
def reading (p : Platform) (s : State) : Value → Nat
  | .const t c => (c % (2 ^ (8 * t.size) : Nat)).toNat
  | .reg t r => (s.regs r).toNat % 2 ^ (8 * t.size)
  | .mem t m _ => load s.mem (s.address p m) t.size

theorem reading_lt (p : Platform) (s : State) (v : Value) :
    reading p s v < 2 ^ (8 * v.type.size) := by
  cases v with
  | const ty c =>
      have hpos : (0 : Int) < (2 ^ (8 * ty.size) : Nat) := Int.natCast_pos.2 (two_pow_bytes_pos _)
      have hlt := Int.emod_lt_of_pos c hpos
      have hnonneg := Int.emod_nonneg c (Int.ne_of_gt hpos)
      rw [reading, Value.type]
      omega
  | reg ty r => exact Nat.mod_lt _ (two_pow_bytes_pos _)
  | mem ty m hs => exact load_lt

theorem reading_const (p : Platform) (s : State) {ty : Ty} (c : Int) (hsize : ty.size = w.bytes) :
    reading p s (.const ty c) = wrap w (Word.signed w.bytes c) := by
  rw [reading, wrap, Word.signed_mod, hsize]

theorem reading_reg (p : Platform) (s : State) {ty : Ty} (hsize : ty.size = w.bytes) :
    reading p s (.reg ty r) = s.view r w := by
  rw [reading, State.view, hsize]

theorem source_reading {v : Value} {o : Operand} {toRegister : Bool} (p : Platform) (s : State)
    (ho : v.Spelt o) (hsize : v.type.size = w.bytes)
    (hfits : toRegister = true ∨ Emit.needsRegister v w = false) :
    s.source p toRegister w o = some (reading p s v) := by
  cases v with
  | const ty c =>
      obtain ⟨w', hw', rfl⟩ := ho
      obtain rfl : w' = w := Width.bytes_inj (hw'.symm.trans hsize)
      have hencodable : encodable toRegister w' (Word.signed w'.bytes c) = true := by
        rcases hfits with rfl | hfits
        · exact encodable_signed c
        · cases toRegister with
          | true => exact encodable_signed c
          | false => exact encodable_of_needsRegister hfits
      rw [State.source, if_pos hencodable, reading_const p s c hw']
  | reg ty r =>
      obtain ⟨w', hw', rfl⟩ := ho
      obtain rfl : w' = w := Width.bytes_inj (hw'.symm.trans hsize)
      rw [State.source, if_pos rfl, reading_reg p s hw']
  | mem ty m hs =>
      obtain rfl := ho
      rw [State.source, if_pos (.inl rfl), reading, show ty.size = _ from hsize]
      rfl

/-- The value `v` holds the number `n`.  A register holds it in its low bytes only. -/
def Holds (p : Platform) (sp : Addr) (s : State) (v : Value) (n : Nat) : Prop :=
  match v with
  | .const t c => c = n ∧ n < 2 ^ (8 * t.size)
  | .reg t r => n = (s.regs r).toNat % 2 ^ (8 * t.size)
  | .mem t m _ => n = load s.mem (s.address p m) t.size ∧ ShelteredAt sp (s.address p m) t.size

namespace Holds

variable {v : Value} {o : Operand}

theorem reading_eq (h : Holds p sp s v n) : reading p s v = n := by
  cases v with
  | const ty c =>
      obtain ⟨rfl, hlt⟩ := h
      rw [reading, ← Int.natCast_emod, Int.toNat_natCast, Nat.mod_eq_of_lt hlt]
  | reg ty r => exact Eq.symm h
  | mem ty m hs => exact h.1.symm

theorem lt (h : Holds p sp s v n) : n < 2 ^ (8 * v.type.size) :=
  h.reading_eq ▸ reading_lt p s v

theorem agrees {keep : Register → Prop} (h : Holds p sp s v n) (hagrees : Agrees keep sp s t)
    (hclosed : v.Closed) (hheld : ∀ r ∈ v.held, keep r) (hbp : keep .rbp) :
    Holds p sp t v n := by
  cases v with
  | const ty c => exact h
  | reg ty r =>
      have hr : t.regs r = s.regs r := hagrees.regs r (hheld r (by simp [Value.held]))
      change n = (t.regs r).toNat % _
      rw [hr]
      exact h
  | mem ty m hs =>
      have haddress : t.address p m = s.address p m :=
        address_eq_of_closed hclosed (fun r hr => hagrees.regs r (hheld r hr))
          (hagrees.regs _ hbp)
      obtain ⟨hload, hsafe⟩ := h
      refine ⟨?_, haddress ▸ hsafe⟩
      rw [haddress, hagrees.load hsafe]
      exact hload

theorem touches {rs : List Register} (h : Holds p sp s v n) (htouches : Touches rs s t)
    (hclosed : v.Closed) (hheld : ∀ r ∈ v.held, r ∉ rs) (hbp : .rbp ∉ rs) : Holds p sp t v n :=
  h.agrees (htouches.agrees fun _ hr => hr) hclosed hheld hbp

theorem withType {ty : Ty} (h : Holds p sp s v n) (hsize : v.type.size = ty.size) :
    Holds p sp s (v.withType ty) n := by
  cases v with
  | const | reg | mem =>
      simp only [Value.type] at hsize
      simpa only [Holds, Value.withType, hsize] using h

theorem set {ty : Ty} (hsize : ty.size = w.bytes) :
    Holds p sp (s.set r w n) (.reg ty r) (n % 2 ^ (8 * w.bytes)) := by
  change n % 2 ^ (8 * w.bytes) = ((s.set r w n).regs r).toNat % 2 ^ (8 * ty.size)
  rw [hsize]
  exact State.view_set.symm

theorem source {toRegister : Bool} (h : Holds p sp s v n) (ho : v.Spelt o)
    (hsize : v.type.size = w.bytes)
    (hfits : toRegister = true ∨ Emit.needsRegister v w = false) :
    s.source p toRegister w o = some n :=
  h.reading_eq ▸ source_reading p s ho hsize hfits

end Holds

end Machine

end Tern
