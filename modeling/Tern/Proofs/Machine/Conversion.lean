import Tern.Proofs.Machine.Run

/-!
# Negation and conversion, executed

The instructions of a negation leave its two's complement in the result.  Those of a conversion
leave the number itself, or its low bytes where the new type is narrower.
-/

namespace Tern

namespace Machine

open Assembly

variable {p : Platform} {sp : Addr} {a b c : Assembly} {s t u : State} {r dst : Register}
  {w w' : Width} {v lhs rhs : Value} {o : Operand} {n x y : Nat}

/-! ## Single instructions -/

theorem step_mov (h : s.source p true w o = some n) :
    step p s (.mov (.reg r w) o) = .ok (s.set r w n) := by
  simp only [step, h, State.setIfSome]

theorem step_combine {op : Combine} (h : s.source p false w o = some n) :
    step p s (.combine op (.reg r w) o) = .ok (s.set r w (combined op w (s.view r w) n)) := by
  simp only [step, h, State.setIfSome, Option.map_some]

theorem Holds.sized (h : Holds p sp s v n) (ho : v.SpeltSized w o)
    (hsize : v.type.size = w.bytes) (hconst : v.isConst = false) :
    (∃ r, o = .reg r w ∧ s.view r w = n) ∨ ∃ m, o = .mem (some w) m ∧ s.fetch p w m = n := by
  cases v with
  | const ty c => cases hconst
  | reg ty r =>
      obtain ⟨w', hw', rfl⟩ := ho
      obtain rfl : w' = w := Width.bytes_inj (hw'.symm.trans hsize)
      refine .inl ⟨r, rfl, ?_⟩
      rw [State.view, ← hw']
      exact Eq.symm h
  | mem ty m hs =>
      refine .inr ⟨m, ho, ?_⟩
      rw [State.fetch, h.1, show ty.size = _ from hsize]

theorem step_movzx (h : Holds p sp s v n) (ho : v.SpeltSized w o)
    (hsize : v.type.size = w.bytes) (hconst : v.isConst = false) (hw : w.bytes < 4)
    (hww' : w.bytes < w'.bytes) :
    step p s (.movzx (.reg r w') o) = .ok (s.set r w' n) := by
  rcases h.sized ho hsize hconst with ⟨q, rfl, hq⟩ | ⟨m, rfl, hm⟩
  · simp only [step, hw, hww', and_self, if_true, hq]
  · simp only [step, hw, hww', and_self, if_true, hm]

theorem step_mul (h : Holds p sp s v n) (ho : v.SpeltSized w o)
    (hsize : v.type.size = w.bytes) (hconst : v.isConst = false) :
    step p s (.mul o) = .ok (s.multiply w n) := by
  rcases h.sized ho hsize hconst with ⟨q, rfl, hq⟩ | ⟨m, rfl, hm⟩
  · simp only [step, hq]
  · simp only [step, hm]

theorem step_div (h : Holds p sp s v n) (ho : v.SpeltSized w o)
    (hsize : v.type.size = w.bytes) (hconst : v.isConst = false) :
    step p s (.div o) = s.divide w n := by
  rcases h.sized ho hsize hconst with ⟨q, rfl, hq⟩ | ⟨m, rfl, hm⟩
  · simp only [step, hq]
  · simp only [step, hm]

theorem Holds.count (h : Holds p sp s v n) (ho : v.SpeltCount o) (hconst : v.isConst = false)
    (hsize : 1 ≤ v.type.size) : s.source p true .byte o = some (n % 2 ^ 8) := by
  cases v with
  | const ty c => cases hconst
  | reg ty r =>
      obtain rfl := ho
      have hdvd : 2 ^ 8 ∣ 2 ^ (8 * ty.size) := Nat.pow_dvd_pow 2 (Nat.le_mul_of_pos_right 8 hsize)
      rw [State.source, if_pos rfl, show n = _ from h, Nat.mod_mod_of_dvd _ hdvd]
      rfl
  | mem ty m hs =>
      obtain rfl := ho
      rw [State.source, if_pos (.inl rfl), h.1]
      exact congrArg some (load_mod hsize).symm

theorem Holds.view {ty : Ty} (h : Holds p sp s (.reg ty r) n) (hsize : ty.size = w.bytes) :
    s.view r w = n := by
  rw [State.view, ← hsize]
  exact Eq.symm h

theorem holds_reg {ty : Ty} (h : s.view r w = n) (hsize : ty.size = w.bytes) :
    Holds p sp s (.reg ty r) n := by
  change n = (s.regs r).toNat % 2 ^ (8 * ty.size)
  rw [hsize, ← h, State.view]

/-! ## Negation and conversion -/

theorem negate_reaches (h : Emit.negate (.value v) a = .ok rhs b) (hx : Holds p sp s v x) :
    ∃ t, Reaches p sp a v.held s b t ∧
      Holds p sp t rhs ((2 ^ (8 * v.type.size) - x) % 2 ^ (8 * v.type.size)) := by
  obtain ⟨_, r, w, o, hv, -, hr, hsize, ho, rfl, rfl⟩ := Emit.negate_ok h
  cases hv
  have hsource : s.source p true w o = some x := hx.source ho hsize (.inl rfl)
  have hview : (s.set r w x).view r w = x := by
    rw [State.view_set, Nat.mod_eq_of_lt (hsize ▸ hx.lt)]
  refine ⟨(s.set r w x).set r w (2 ^ (8 * w.bytes) - x),
    Reaches.lines (b := (a.occupy r).extend _) ⟨.occupied ?_, ?_⟩ rfl, ?_⟩
  · rw [exec_cons_ok (step_mov hsource), exec_singleton]
    simp only [step, hview]
  · exact (Agrees.refl.set (not_kept_free hr)).set (not_kept_free hr)
  · rw [hsize]
    exact Holds.set hsize

theorem source_mask (hw : w.bytes < 4) (hww' : w.bytes < w'.bytes) :
    s.source p false w' (.mask w.bytes) = some (2 ^ (8 * w.bytes) - 1) := by
  revert hw hww'
  cases w <;> cases w' <;> simp [State.source, Width.bytes, encodable, wrap]

theorem view_set_of_view_eq_zero (h : s.view r w' = 0) (hww' : w.bytes ≤ w'.bytes) :
    (s.set r w n).view r w' = n % 2 ^ (8 * w.bytes) := by
  have hdvd : 2 ^ (8 * w.bytes) ∣ 2 ^ (8 * w'.bytes) := Nat.pow_dvd_pow 2 (by omega)
  have hlt : n % 2 ^ (8 * w.bytes) < 2 ^ (8 * w'.bytes) :=
    Nat.lt_of_lt_of_le (Nat.mod_lt _ (two_pow_bytes_pos _))
      (Nat.le_of_dvd (two_pow_bytes_pos _) hdvd)
  by_cases hw : w.bytes < 4
  · have hset : (s.set r w n).regs r = merge w (s.regs r) n := if_pos rfl
    have hdvd' : 2 ^ (8 * w'.bytes) ∣ 2 ^ 64 := Nat.pow_dvd_pow 2 (by cases w' <;> decide)
    have hzero : 2 ^ (8 * w'.bytes) ∣ (s.regs r).toNat := Nat.dvd_of_mod_eq_zero h
    have hold : (s.regs r).toNat / 2 ^ (8 * w.bytes) * 2 ^ (8 * w.bytes) = (s.regs r).toNat :=
      Nat.div_mul_cancel (Nat.dvd_trans hdvd hzero)
    rw [State.view, hset, merge, if_pos hw, hold, BitVec.toNat_ofNat, Nat.mod_mod_of_dvd _ hdvd',
      Nat.add_mod, Nat.mod_eq_zero_of_dvd hzero, Nat.zero_add, Nat.mod_mod, Nat.mod_eq_of_lt hlt]
  · rw [State.view, State.toNat_regs_set (by omega), Nat.mod_eq_of_lt hlt]

theorem zeroExtend_reaches {source target : Ty} {e : Unit}
    (h : Emit.zeroExtend r source target a = .ok e b) (hpool : a.Pooled) (hown : a.Owns [r])
    (hsource : source.size = w.bytes) (htarget : target.size = w'.bytes)
    (hlt : w.bytes < w'.bytes) (hx : Holds p sp s (.reg source r) x) :
    ∃ t, Reaches p sp a [r] s b t ∧ Holds p sp t (.reg target r) x := by
  have hkept : ¬ a.Kept [r] r := hpool.not_kept hown (List.mem_singleton_self r)
  have hxlt : x < 2 ^ (8 * w.bytes) := hsource ▸ hx.lt
  have hpow : 2 ^ (8 * w.bytes) ≤ 2 ^ (8 * w'.bytes) := Nat.pow_le_pow_right (by decide) (by omega)
  rcases Emit.zeroExtend_ok h with ⟨h4, rfl⟩ | ⟨w₁, h4, hw₁, rfl⟩
  · obtain rfl : w = .dword := Width.bytes_inj (hsource.symm.trans h4)
    have hread : s.source p true .dword (.reg r .dword) = some x := by
      rw [State.source, if_pos rfl, hx.view hsource]
    refine ⟨s.set r .dword x, ⟨.extend ?_, Agrees.refl.set hkept⟩, ?_⟩
    · rw [exec_singleton, step_mov hread]
    · refine holds_reg (w := w') ?_ htarget
      rw [State.view, State.toNat_regs_set (by decide), Nat.mod_eq_of_lt hxlt,
        Nat.mod_eq_of_lt (by omega)]
  · obtain rfl : w₁ = w' := Width.bytes_inj (hw₁.symm.trans htarget)
    have hw : w.bytes < 4 := by
      revert h4 hlt
      rw [hsource]
      cases w <;> cases w₁ <;> decide
    have hmask : s.source p false w₁ (.mask source.size) = some (2 ^ (8 * w.bytes) - 1) := by
      rw [hsource]
      exact source_mask hw hlt
    have hand : combined .and w₁ (s.view r w₁) (2 ^ (8 * w.bytes) - 1) = x := by
      rw [combined, Nat.and_two_pow_sub_one_eq_mod, State.view_mod (by omega), hx.view hsource]
    refine ⟨s.set r w₁ x, ⟨.extend ?_, Agrees.refl.set hkept⟩, ?_⟩
    · rw [exec_singleton, step_combine hmask, hand]
    · refine holds_reg ?_ htarget
      rw [State.view_set, Nat.mod_eq_of_lt (by omega)]

theorem load_reaches {source target : Ty} {m : Address} {hs : List Register} {e : Unit}
    (h : Emit.load r source target m (a.occupy r) = .ok e b) (hr : a.firstFree? = some r)
    (hown : a.Owns hs) (hclosed : (Value.mem source m hs).Closed)
    (hsource : source.size = w.bytes) (hx : Holds p sp s (.mem source m hs) x) :
    ∃ t, Reaches p sp a hs s b t ∧
      Holds p sp t (.reg target r) (x % 2 ^ (8 * target.size)) := by
  have hkept : ¬ a.Kept hs r := not_kept_free hr
  have hxlt : x < 2 ^ (8 * w.bytes) := hsource ▸ hx.lt
  rcases Emit.load_ok h with ⟨w₁, w₂, hlt, hw₁, hw₂, rfl⟩ | ⟨w₁, hle, hw₁, rfl⟩
  · obtain rfl : w₂ = w := Width.bytes_inj (hw₂.symm.trans hsource)
    have hpow : 2 ^ (8 * w₂.bytes) ≤ 2 ^ (8 * w₁.bytes) :=
      Nat.pow_le_pow_right (by decide) (by omega)
    -- Clearing the register first does not change the address: `r` was free.
    have hself : s.source p false w₁ (.reg r w₁) = some (s.view r w₁) := by
      rw [State.source, if_pos rfl]
    have hclear : combined .xor w₁ (s.view r w₁) (s.view r w₁) = 0 := Nat.xor_self _
    have hread : (s.set r w₁ 0).source p true w₂ (.mem none m) = some x := by
      have hfree : ∀ q ∈ hs, q ∉ [r] := fun q hq hqr =>
        (firstFree?_eq_some hr).2 (List.mem_singleton.1 hqr ▸ hown.busy q hq)
      have hbp : Register.rbp ∉ [r] := fun hqr => hkept (List.mem_singleton.1 hqr ▸ kept_rbp)
      have hx' := hx.touches (Touches.set (w := w₁) (n := 0) (List.mem_singleton_self r))
        hclosed hfree hbp
      exact hx'.source rfl hsource (.inl rfl)
    have hzero : (s.set r w₁ 0).view r w₁ = 0 := by rw [State.view_set, Nat.zero_mod]
    refine ⟨(s.set r w₁ 0).set r w₂ x,
      ⟨.occupied ?_, (Agrees.refl.set hkept).set hkept⟩, ?_⟩
    · rw [exec_cons_ok (step_combine hself), hclear, exec_singleton, step_mov hread]
    · refine holds_reg (w := w₁) ?_ hw₁
      rw [view_set_of_view_eq_zero hzero (by omega), Nat.mod_eq_of_lt hxlt, hw₁,
        Nat.mod_eq_of_lt (by omega)]
  · have hread : s.source p true w₁ (.mem none m) = some (x % 2 ^ (8 * w₁.bytes)) := by
      rw [State.source, if_pos (.inl rfl), hx.1, load_mod (hw₁ ▸ hle)]
      rfl
    refine ⟨s.set r w₁ (x % 2 ^ (8 * w₁.bytes)),
      ⟨.occupied ?_, Agrees.refl.set hkept⟩, ?_⟩
    · rw [exec_singleton, step_mov hread]
    · refine holds_reg (w := w₁) ?_ hw₁
      rw [State.view_set, Nat.mod_mod, hw₁]

theorem convert_reaches {ty : Ty} (h : Emit.convert v ty a = .ok rhs b) (hpool : a.Pooled)
    (hown : a.Owns v.held) (hclosed : v.Closed) (hsize : v.type.size = w.bytes)
    (htarget : ty.size = w'.bytes) (hx : Holds p sp s v x) :
    ∃ t, Reaches p sp a v.held s b t ∧ Holds p sp t rhs (x % 2 ^ (8 * ty.size)) := by
  rcases Emit.convert_ok h with ⟨hsame, rfl, rfl⟩ | ⟨hne, h⟩
  · refine ⟨s, .refl, ?_⟩
    rw [Nat.mod_eq_of_lt (hsame ▸ hx.lt)]
    exact hx.withType hsame
  · rcases Emit.resize_ok h with ⟨source, r, rfl, rfl, ⟨hlt, hext⟩ | ⟨hle, rfl⟩⟩ |
      ⟨source, m, hs, r, c, rfl, rfl, hr, hload, rfl⟩
    · have hlt' : w.bytes < w'.bytes := by
        rw [← htarget, ← hsize]
        exact hlt
      have hpow : 2 ^ (8 * source.size) ≤ 2 ^ (8 * ty.size) :=
        Nat.pow_le_pow_right (by decide) (by omega)
      have hxlt : x < 2 ^ (8 * source.size) := hx.lt
      rw [Nat.mod_eq_of_lt (by omega)]
      exact zeroExtend_reaches hext hpool hown hsize htarget hlt' hx
    · refine ⟨s, .refl, ?_⟩
      change x % 2 ^ (8 * ty.size) = _
      rw [show x = _ from hx, Nat.mod_mod_of_dvd _ (Nat.pow_dvd_pow 2 (by omega))]
    · obtain ⟨t, hreaches, hholds⟩ := load_reaches hload hr hown hclosed hsize hx
      exact ⟨t, hreaches.lines rfl, hholds⟩

theorem widen_reaches {ty : Ty} (h : Emit.widen v ty a = .ok rhs b) (hpool : a.Pooled)
    (hown : a.Owns v.held) (hclosed : v.Closed) (hsize : v.type.size = w.bytes)
    (htarget : ty.size = w'.bytes) (hle : v.type.size ≤ ty.size) (hx : Holds p sp s v x) :
    ∃ t, Reaches p sp a v.held s b t ∧ Holds p sp t rhs x := by
  have hxlt : x < 2 ^ (8 * ty.size) :=
    Nat.lt_of_lt_of_le hx.lt (Nat.pow_le_pow_right (by decide) (by omega))
  rcases Emit.widen_ok h with ⟨hconst, rfl, rfl⟩ | ⟨-, h⟩
  · refine ⟨s, .refl, ?_⟩
    cases v with
    | const t c => exact ⟨hx.1, hxlt⟩
    | reg | mem => cases hconst
  · obtain ⟨t, hreaches, hholds⟩ := convert_reaches h hpool hown hclosed hsize htarget hx
    rw [Nat.mod_eq_of_lt hxlt] at hholds
    exact ⟨t, hreaches, hholds⟩

theorem balance_reaches {l r : Value} (h : Emit.balance lhs rhs a = .ok (l, r) b)
    (hpool : a.Pooled) (hown : a.Owns (lhs.held ++ rhs.held)) (hl : lhs.Closed)
    (hr : rhs.Closed) (hlsize : lhs.type.size = w.bytes) (hrsize : rhs.type.size = w'.bytes)
    (hx : Holds p sp s lhs x) (hy : Holds p sp s rhs y) :
    ∃ t, Reaches p sp a (lhs.held ++ rhs.held) s b t ∧ Holds p sp t l x ∧ Holds p sp t r y := by
  have hown' : a.Owns (rhs.held ++ lhs.held) :=
    ⟨List.perm_append_comm.nodup_iff.1 hown.nodup, fun q hq => hown.busy q (by grind)⟩
  rcases Emit.balance_ok h with ⟨hlt, rfl, h⟩ | ⟨hlt, rfl, h⟩ | ⟨-, rfl, rfl, rfl⟩
  · obtain ⟨t, hreaches, hy'⟩ :=
      widen_reaches h hpool hown.right hr hrsize hlsize (Nat.le_of_lt hlt) hy
    exact ⟨t, hreaches.weaken (by simp +contextual), hx.reaches hreaches hl hown', hy'⟩
  · obtain ⟨t, hreaches, hx'⟩ :=
      widen_reaches h hpool hown.left hl hlsize hrsize (Nat.le_of_lt hlt) hx
    exact ⟨t, hreaches.weaken (by simp +contextual), hx', hy.reaches hreaches hr hown⟩
  · exact ⟨s, .refl, hx, hy⟩

end Machine

end Tern
