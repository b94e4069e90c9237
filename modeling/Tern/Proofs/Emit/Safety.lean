import Tern.Proofs.Emit.Access
import Tern.Compile.Expr

/-!
# Faults of emitting operations

On operands that the checks of the compiler let through, an operation fails only when the
register pool is exhausted.  Nothing is ever spilled; the number of free registers that an
operation needs, and the number that it may leave in use, add up along a sequence of
operations.
-/

namespace Tern

/-- Whenever `x` fails from `s`, its error satisfies `P`. -/
def FailsOnly {ε σ α : Type} (P : ε → Prop) (x : EStateM ε σ α) (s : σ) : Prop :=
  ∀ e s', x s = .error e s' → P e

namespace FailsOnly

variable {ε σ α β : Type} {P : ε → Prop} {s : σ}

theorem pure (v : α) : FailsOnly P (pure v : EStateM ε σ α) s :=
  fun _ _ h => (pure_eq_error.1 h).elim

theorem bind {x : EStateM ε σ α} {f : α → EStateM ε σ β} (hx : FailsOnly P x s)
    (hf : ∀ v s', x s = .ok v s' → FailsOnly P (f v) s') : FailsOnly P (x >>= f) s := by
  intro e s' h
  rcases bind_eq_error.1 h with h | ⟨v, t, hv, h⟩
  · exact hx e s' h
  · exact hf v t hv e s' h

theorem ofOk {x : EStateM ε σ α} {v : α} {s' : σ} (h : x s = .ok v s') : FailsOnly P x s := by
  intro e t he
  rw [h] at he
  cases he

theorem bindOk {x : EStateM ε σ α} {f : α → EStateM ε σ β} {v : α} {s' : σ}
    (hx : x s = .ok v s') (hf : FailsOnly P (f v) s') : FailsOnly P (x >>= f) s := by
  refine (ofOk hx).bind fun u t hu => ?_
  rw [hx] at hu
  cases hu
  exact hf

theorem get : FailsOnly P (get : EStateM ε σ σ) s := fun _ _ h => (get_eq_error.1 h).elim

theorem modify (f : σ → σ) : FailsOnly P (modify f : EStateM ε σ PUnit) s :=
  fun _ _ h => (modify_eq_error.1 h).elim

theorem throw {e : ε} (h : P e) : FailsOnly P (throw e : EStateM ε σ α) s := by
  intro e' s' he
  obtain ⟨rfl, -⟩ := throw_eq_error.1 he
  exact h

end FailsOnly

theorem Ty.exists_width {t : Ty} (h : t.isArray = false) : ∃ w : Width, t.size = w.bytes := by
  cases t with
  | builtin b =>
      cases b with
      | byte | char => exact ⟨.byte, rfl⟩
      | int => exact ⟨.dword, rfl⟩
      | long => exact ⟨.qword, rfl⟩
  | pointer base => exact ⟨.qword, rfl⟩
  | array base n => cases h

namespace Assembly

variable {a b : Assembly}

/-- The number of registers of the pool that are free. -/
def spare (a : Assembly) : Nat := (Register.pool.filter fun r => !a.busy.contains r).length

theorem spare_le (rs : List Register) (h : ∀ r ∈ b.busy, r ∈ Register.pool → r ∈ a.busy ∨ r ∈ rs) :
    a.spare ≤ b.spare + rs.length := by
  have hsub : (Register.pool.filter fun r => !a.busy.contains r) ⊆
      (Register.pool.filter fun r => !b.busy.contains r) ++ rs := by
    intro r hr
    rw [List.mem_filter] at hr
    by_cases hb : r ∈ b.busy
    · have ha : r ∉ a.busy := by simpa using hr.2
      exact List.mem_append_right _ ((h r hb hr.1).resolve_left ha)
    · exact List.mem_append_left _ (List.mem_filter.2 ⟨hr.1, by simpa using hb⟩)
  have hnodup : (Register.pool.filter fun r => !a.busy.contains r).Nodup :=
    Register.pool_nodup.filter _
  have hle := (List.subperm_of_subset hnodup hsub).length_le
  rwa [List.length_append] at hle

theorem spare_eq_zero (h : a.firstFree? = none) : a.spare = 0 := by
  have hnone := List.find?_eq_none.1 h
  rw [spare, List.filter_eq_nil_iff.2 hnone]
  rfl

end Assembly

namespace Emit

variable {α β : Type} {x : Emit α} {f : α → Emit β} {need cost need' cost' : Nat}

/-- The operation fails only where the pool is exhausted because fewer than `need` registers
were spare, and leaves at most `cost` fewer of them. -/
structure Uses (x : Emit α) (need cost : Nat) : Prop where
  fails : ∀ {a e b}, x a = .error e b → e = .poolExhausted ∧ a.spare < need
  costs : ∀ {a v b}, x a = .ok v b → a.spare ≤ b.spare + cost

namespace Uses

theorem failsOnly (h : Uses x need cost) (a : Assembly) : FailsOnly (· = .poolExhausted) x a :=
  fun _ _ he => (h.fails he).1

/-- The bounds are numerals where this is used, so that `rfl` compares them. -/
theorem weaken (h : Uses x need cost) (hle : decide (need ≤ need' ∧ cost ≤ cost') = true) :
    Uses x need' cost' := by
  obtain ⟨hneed, hcost⟩ := of_decide_eq_true hle
  exact ⟨fun he => ⟨(h.fails he).1, Nat.lt_of_lt_of_le (h.fails he).2 hneed⟩,
    fun hv => Nat.le_trans (h.costs hv) (Nat.add_le_add_left hcost _)⟩

theorem bind (hx : Uses x need cost) (hf : ∀ {v a b}, x a = .ok v b → Uses (f v) need' cost') :
    Uses (x >>= f) (max need (cost + need')) (cost + cost') where
  fails he := by
    rcases bind_eq_error.1 he with he | ⟨v, b, hv, he⟩
    · obtain ⟨hfault, hspare⟩ := hx.fails he
      exact ⟨hfault, by omega⟩
    · obtain ⟨hfault, hspare⟩ := (hf hv).fails he
      have hcosts := hx.costs hv
      exact ⟨hfault, by omega⟩
  costs hw := by
    obtain ⟨v, b, hv, hw⟩ := bind_eq_ok.1 hw
    have hcosts := hx.costs hv
    have hcosts' := (hf hv).costs hw
    omega

theorem free (hfails : ∀ {a e b}, x a = .error e b ↔ False)
    (hcosts : ∀ {a v b}, x a = .ok v b → ∀ r ∈ b.busy, r ∈ a.busy) : Uses x 0 0 where
  fails he := (hfails.1 he).elim
  costs hv := Assembly.spare_le [] fun r hr _ => .inl (hcosts hv r hr)

theorem pure (v : α) : Uses (pure v) 0 0 :=
  .free pure_eq_error fun hv r hr => by
    obtain ⟨-, rfl⟩ := pure_eq_ok.1 hv
    exact hr

end Uses

theorem instr_uses (i : Instr) : Uses (instr i) 0 0 :=
  .free instr_eq_error fun hv r hr => by
    obtain rfl := instr_eq_ok.1 hv
    exact hr

theorem release_uses (rs : List Register) : Uses (release rs) 0 0 :=
  .free release_eq_error fun hv r hr => by
    obtain rfl := release_eq_ok.1 hv
    exact ((Assembly.mem_busy_release rs).1 hr).1

theorem discard_uses (v : Value) : Uses (discard v) 0 0 := release_uses _

theorem acquire_uses : Uses acquire 1 1 where
  fails {a e b} he := by
    refine ⟨acquire_eq_error he, ?_⟩
    rw [acquire_apply] at he
    cases hfree : a.firstFree? with
    | none =>
        rw [Assembly.spare_eq_zero hfree]
        exact Nat.one_pos
    | some r =>
        rw [hfree] at he
        cases he
  costs {a v b} hv := by
    obtain ⟨-, rfl⟩ := acquire_eq_ok.1 hv
    refine Assembly.spare_le [v] fun r hr _ => ?_
    simpa using hr

theorem spare_le_release {a : Assembly} (rs : List Register) : a.spare ≤ (a.release rs).spare :=
  (release_uses rs).costs (release_eq_ok.2 rfl : release rs a = .ok () _)

theorem withScratch_uses {body : Register → Emit α} (h : ∀ r, Uses (body r) need cost) :
    Uses (withScratch body) (1 + need) (1 + cost) where
  fails {a e b} he := by
    rw [withScratch_apply] at he
    cases hacquire : acquire a with
    | error e' b' =>
        obtain ⟨hfault, hspare⟩ := acquire_uses.fails hacquire
        rw [hacquire] at he
        cases he
        exact ⟨hfault, by omega⟩
    | ok r c =>
        have hcosts := acquire_uses.costs hacquire
        rw [hacquire] at he
        simp only at he
        cases hbody : body r c with
        | ok v d =>
            rw [hbody] at he
            cases he
        | error e' d =>
            obtain ⟨hfault, hspare⟩ := (h r).fails hbody
            rw [hbody] at he
            cases he
            exact ⟨hfault, by omega⟩
  costs {a v b} hv := by
    obtain ⟨r, c, hfree, hbody, rfl⟩ := withScratch_eq_ok.1 hv
    have hcosts := acquire_uses.costs (acquire_eq_ok.2 ⟨hfree, rfl⟩)
    have hcosts' := (h r).costs hbody
    have hrelease := spare_le_release (a := c) [r]
    omega

theorem reserving_uses {rs : List Register} {body : Emit α} (h : Uses body need cost) :
    Uses (reserving rs body) ((rs.filter (Register.pool.contains ·)).length + need)
      ((rs.filter (Register.pool.contains ·)).length + cost) := by
  have hreserve : ∀ a : Assembly, a.spare ≤
      ((a.extend ((saved rs a).map .push)).occupyAll (blocked rs a)).spare +
        (rs.filter (Register.pool.contains ·)).length := by
    intro a
    refine Assembly.spare_le _ fun r hr hpool => ?_
    rcases (Assembly.mem_busy_occupyAll _).1 hr with hr | hr
    · exact .inl hr
    · exact .inr (List.mem_filter.2 ⟨(mem_blocked.1 hr).1, by simpa using hpool⟩)
  constructor
  · intro a e b he
    have hle := hreserve a
    rw [reserving_apply, reserve_apply] at he
    simp only at he
    cases hbody : body ((a.extend ((saved rs a).map .push)).occupyAll (blocked rs a)) with
    | ok v c =>
        rw [hbody] at he
        simp only [restore_apply] at he
        cases he
    | error e' c =>
        obtain ⟨hfault, hspare⟩ := h.fails hbody
        rw [hbody] at he
        cases he
        exact ⟨hfault, by omega⟩
  · intro a v b hv
    obtain ⟨c, hbody, rfl⟩ := reserving_eq_ok.1 hv
    have hle := hreserve a
    have hcosts := h.costs hbody
    have hrelease := spare_le_release (a := c) (blocked rs a)
    change a.spare ≤ (c.release (blocked rs a)).spare + _
    omega

variable {w : Width}

theorem scalarWidth_uses {t : Ty} (h : t.size = w.bytes) : Uses (scalarWidth t) 0 0 :=
  .free (scalarWidth_eq_error h) fun hv r hr => by
    obtain ⟨-, rfl⟩ := scalarWidth_eq_ok.1 hv
    exact hr

theorem operand_uses {v : Value} (h : v.type.size = w.bytes) : Uses (operand v) 0 0 := by
  cases v with
  | const t n => exact .weaken ((scalarWidth_uses h).bind fun _ => .pure _) rfl
  | reg t r => exact .weaken ((scalarWidth_uses h).bind fun _ => .pure _) rfl
  | mem t m hs => exact .pure _

theorem sizedOperand_uses {v : Value} (h : v.type.size = w.bytes) (w' : Width) :
    Uses (sizedOperand v w') 0 0 := by
  cases v with
  | const t n | reg t r => exact operand_uses h
  | mem t m hs => exact .pure _

theorem negate_uses {v : Value} (hv : v.isConst = false) (h : v.type.size = w.bytes) :
    Uses (negate (.value v)) 1 1 := by
  cases v with
  | const t n => cases hv
  | reg t q | mem t m hs =>
      exact .weaken (acquire_uses.bind fun _ => (scalarWidth_uses h).bind fun _ =>
        (operand_uses h).bind fun _ => (instr_uses _).bind fun _ => (instr_uses _).bind fun _ =>
          (discard_uses _).bind fun _ => .pure _) rfl

theorem zeroExtend_uses (r : Register) (source : Ty) {target : Ty}
    (h : target.size = w.bytes) : Uses (zeroExtend r source target) 0 0 := by
  unfold zeroExtend
  split
  · exact instr_uses _
  · exact .weaken ((scalarWidth_uses h).bind fun _ => instr_uses _) rfl

theorem load_uses (r : Register) {source target : Ty} {w' : Width} (m : Address)
    (hs : source.size = w'.bytes) (ht : target.size = w.bytes) :
    Uses (load r source target m) 0 0 := by
  unfold load
  split
  · exact .weaken ((scalarWidth_uses ht).bind fun _ => (instr_uses _).bind fun _ =>
      (scalarWidth_uses hs).bind fun _ => instr_uses _) rfl
  · exact .weaken ((scalarWidth_uses ht).bind fun _ => instr_uses _) rfl

theorem convert_uses {v : Value} {t : Ty} {w' : Width} (hv : v.isConst = false)
    (hs : v.type.size = w'.bytes) (ht : t.size = w.bytes) : Uses (convert v t) 1 1 := by
  unfold convert
  split
  · exact .weaken (.pure _) rfl
  · cases v with
    | const s n => cases hv
    | reg s r =>
        unfold resize
        simp only
        split
        · exact .weaken ((zeroExtend_uses r s ht).bind fun _ => .pure _) rfl
        · exact .weaken (.pure _) rfl
    | mem s m hs' =>
        exact .weaken (acquire_uses.bind fun _ => (load_uses _ m hs ht).bind fun _ =>
          (release_uses _).bind fun _ => .pure _) rfl

theorem widen_uses {v : Value} {t : Ty} {w' : Width} (hs : v.type.size = w'.bytes)
    (ht : t.size = w.bytes) : Uses (widen v t) 1 1 := by
  unfold widen
  split
  · exact .weaken (.pure _) rfl
  · next hv => exact convert_uses (by simpa using hv) hs ht

theorem balance_uses {lhs rhs : Value} {w' : Width} (hl : lhs.type.size = w.bytes)
    (hr : rhs.type.size = w'.bytes) : Uses (balance lhs rhs) 1 1 := by
  unfold balance
  split
  · exact .weaken ((widen_uses hr hl).bind fun _ => .pure _) rfl
  · split
    · exact .weaken ((widen_uses hl hr).bind fun _ => .pure _) rfl
    · exact .weaken (.pure _) rfl

theorem toRegister_uses {v : Value} (h : v.type.size = w.bytes) (w' : Width) :
    Uses (toRegister v w') 1 1 := by
  cases v with
  | reg t r => exact .weaken (.pure _) rfl
  | const t n | mem t m hs =>
      exact .weaken (acquire_uses.bind fun _ => (operand_uses h).bind fun _ =>
        (instr_uses _).bind fun _ => (discard_uses _).bind fun _ => .pure _) rfl

theorem additive_uses (op : Combine) {lhs rhs : Value} (hl : lhs.type.size = w.bytes)
    (hr : rhs.type.size = w.bytes) : Uses (additive op w lhs rhs) 2 2 := by
  unfold additive
  refine .weaken ((toRegister_uses hl w).bind fun _ => (?_ : Uses _ 1 1)) rfl
  split
  · exact .weaken ((withScratch_uses fun _ => (operand_uses hr).bind fun _ =>
      (instr_uses _).bind fun _ => instr_uses _).bind fun _ =>
        (discard_uses _).bind fun _ => .pure _) rfl
  · exact .weaken ((operand_uses hr).bind fun _ => (instr_uses _).bind fun _ =>
      (discard_uses _).bind fun _ => .pure _) rfl

theorem vacateCount_uses (r : Register) : Uses (vacateCount r) 1 1 := by
  unfold vacateCount
  split
  · exact .weaken (acquire_uses.bind fun _ => (instr_uses _).bind fun _ =>
      (release_uses _).bind fun _ => .pure _) rfl
  · exact .weaken (.pure _) rfl

theorem countOperand_uses {v : Value} (h : v.type.size = w.bytes) :
    Uses (countOperand v) 0 0 := by
  cases v with
  | reg t r => exact .pure _
  | const t n | mem t m hs => exact operand_uses h

theorem shift_uses (dir : Direction) {lhs rhs : Value} (hl : lhs.type.size = w.bytes)
    (hr : rhs.type.size = w.bytes) : Uses (shift dir w lhs rhs) 3 3 := by
  unfold shift
  refine .weaken ((toRegister_uses hl w).bind fun _ => (?_ : Uses _ 2 2)) rfl
  cases rhs with
  | const t n => exact .weaken ((instr_uses _).bind fun _ => .pure _) rfl
  | reg t q | mem t m hs =>
      refine .weaken (Uses.bind (?_ : Uses _ 2 2) fun _ => .pure _) rfl
      exact .weaken ((vacateCount_uses _).bind fun _ => (countOperand_uses hr).bind fun _ =>
        (reserving_uses ((instr_uses _).bind fun _ => instr_uses _)).bind fun _ =>
          (discard_uses _).bind fun _ => .pure _) rfl

theorem stage_uses {v : Value} (h : v.type.size = w.bytes) (w' : Width) :
    Uses (stage v w') 1 1 := by
  unfold stage
  split
  · exact .weaken (acquire_uses.bind fun _ => (operand_uses h).bind fun _ =>
      (instr_uses _).bind fun _ => .pure _) rfl
  · exact .weaken (.pure _) rfl

theorem fillAccumulator_uses {v : Value} (h : v.type.size = w.bytes) (w' : Width) :
    Uses (fillAccumulator v w') 0 0 := by
  unfold fillAccumulator
  cases v with
  | const t n => exact instr_uses _
  | reg t q | mem t m hs =>
      simp only
      split
      · exact .weaken ((sizedOperand_uses h _).bind fun _ => instr_uses _) rfl
      · exact .weaken ((operand_uses h).bind fun _ => instr_uses _) rfl

theorem divide_uses {v : Value} (h : v.type.size = w.bytes) (w' : Width) :
    Uses (divide w' v) 0 0 := by
  have hdiv : Uses (sizedOperand v w' >>= fun o => instr (.div o)) 0 0 :=
    .weaken ((sizedOperand_uses h w').bind fun _ => instr_uses _) rfl
  unfold divide
  split
  · exact .weaken ((instr_uses _).bind fun _ => hdiv) rfl
  · exact hdiv

theorem accumulate_uses (op : WideOp) {v : Value} (h : v.type.size = w.bytes) (w' : Width) :
    Uses (accumulate op w' v) 0 0 := by
  cases op with
  | product => exact .weaken ((sizedOperand_uses h w').bind fun _ => instr_uses _) rfl
  | quotient => exact divide_uses h w'
  | remainder =>
      refine .weaken ((divide_uses h w').bind fun _ => (?_ : Uses _ 0 0)) rfl
      unfold takeRemainder
      split <;> exact instr_uses _

theorem stage_type {v f : Value} {staged : List Register} {a b : Assembly}
    (h : stage v w a = .ok (f, staged) b) : f.type = v.type := by
  rcases stage_ok h with ⟨-, _, _, -, -, rfl, -⟩ | ⟨-, -, rfl, -⟩ <;> rfl

theorem wide_uses (op : WideOp) {lhs rhs : Value} (hl : lhs.type.size = w.bytes)
    (hr : rhs.type.size = w.bytes) : Uses (wide op w lhs rhs) 3 3 := by
  refine .weaken ((reserving_uses (?_ : Uses _ 1 1)).bind fun _ => (discard_uses _).bind fun _ =>
    (discard_uses _).bind fun _ => (release_uses _).bind fun _ => acquire_uses.bind fun _ =>
      (instr_uses _).bind fun _ => .pure _) rfl
  refine .weaken ((stage_uses hr w).bind fun {factor _ _} hstage => (?_ : Uses _ 0 0)) rfl
  have hfactor : factor.1.type.size = w.bytes := by rw [stage_type hstage, hr]
  exact .weaken ((fillAccumulator_uses hl w).bind fun _ =>
    (accumulate_uses op hfactor w).bind fun _ => .pure _) rfl

theorem operation_uses (op : BinaryOp) {lhs rhs : Value} (hl : lhs.type.size = w.bytes)
    (hr : rhs.type.size = w.bytes) : Uses (operation op lhs rhs) 3 3 := by
  refine .weaken ((scalarWidth_uses hl).bind fun {w'} _ _ hw => (?_ : Uses _ 3 3)) rfl
  have hsize : lhs.type.size = w'.bytes := (scalarWidth_eq_ok.1 hw).1
  rw [if_neg (by omega)]
  have hr' : rhs.type.size = w'.bytes := by omega
  cases op with
  | add | sub => exact .weaken (additive_uses _ hsize hr') rfl
  | shl | shr => exact shift_uses _ hsize hr'
  | mul | div | mod => exact wide_uses _ hsize hr'

theorem admitsWith_scalar {l r : Ty} {op : BinaryOp} (h : l.admitsWith op r = true) :
    l.isArray = false ∧ r.isArray = false := by
  cases l with
  | array base n => simp [Ty.admitsWith, Ty.admits] at h
  | builtin b | pointer base =>
      cases r with
      | array base n => simp [Ty.admitsWith] at h
      | builtin b' | pointer base' => exact ⟨rfl, rfl⟩

theorem admitsWith_widths {l r : Ty} {op : BinaryOp} (h : l.admitsWith op r = true) :
    (∃ w : Width, l.size = w.bytes) ∧ ∃ w : Width, r.size = w.bytes :=
  (admitsWith_scalar h).imp Ty.exists_width Ty.exists_width

theorem convert_type {v u : Value} {t : Ty} {a b : Assembly} (h : convert v t a = .ok u b) :
    u.type = t := by
  rcases convert_ok h with ⟨-, rfl, -⟩ | ⟨-, h⟩
  · exact Value.type_withType t v
  · rcases resize_ok h with ⟨_, _, -, rfl, -⟩ | ⟨_, _, _, _, _, -, rfl, -⟩ <;> rfl

theorem widen_type {v u : Value} {t : Ty} {a b : Assembly} (h : widen v t a = .ok u b) :
    u.type = t := by
  rcases widen_ok h with ⟨-, rfl, -⟩ | ⟨-, h⟩
  · exact Value.type_withType t v
  · exact convert_type h

theorem balance_types {lhs rhs l r : Value} {a b : Assembly}
    (h : balance lhs rhs a = .ok (l, r) b) :
    l.type = lhs.type.wider rhs.type ∧ l.type.size = r.type.size := by
  rcases balance_ok h with ⟨hlt, rfl, h⟩ | ⟨hlt, rfl, h⟩ | ⟨heq, rfl, rfl, -⟩
  · rw [widen_type h, Ty.wider, if_neg (by omega)]
    exact ⟨rfl, rfl⟩
  · rw [widen_type h, Ty.wider, if_pos hlt]
    exact ⟨rfl, rfl⟩
  · rw [Ty.wider, if_neg (by omega)]
    exact ⟨rfl, heq⟩

theorem wider_width {l r : Ty} (hl : ∃ w : Width, l.size = w.bytes)
    (hr : ∃ w : Width, r.size = w.bytes) : ∃ w : Width, (l.wider r).size = w.bytes := by
  unfold Ty.wider
  split
  · exact hr
  · exact hl

theorem operate_uses {op : BinaryOp} {lhs rhs : Value}
    (h : lhs.type.admitsWith op rhs.type = true) : Uses (Compile.operate op lhs rhs) 4 4 := by
  obtain ⟨⟨w, hw⟩, ⟨w', hw'⟩⟩ := admitsWith_widths h
  unfold Compile.operate
  split
  · next htype =>
    have hr : rhs.type.size = w.bytes := htype ▸ hw
    exact .weaken (operation_uses op hw hr) rfl
  · refine .weaken ((balance_uses hw hw').bind fun {both _ _} hboth => (?_ : Uses _ 3 3)) rfl
    obtain ⟨htype, hsize⟩ := balance_types hboth
    obtain ⟨v, hv⟩ := wider_width ⟨w, hw⟩ ⟨w', hw'⟩
    have hl : both.1.type.size = v.bytes := by rw [htype, hv]
    have hr : both.2.type.size = v.bytes := by rw [← hsize, hl]
    exact operation_uses op hl hr

theorem reference_uses {i : Item} (h : i.isInMemory = true) : Uses (reference i) 1 1 := by
  cases i with
  | void => cases h
  | value v =>
      cases v with
      | const t n | reg t r => cases h
      | mem t m hs =>
          exact .weaken (acquire_uses.bind fun _ => (instr_uses _).bind fun _ =>
            (release_uses _).bind fun _ => .pure _) rfl

theorem elementBase_uses {v : Value} (hv : v.isConst = false) : Uses (elementBase v) 1 1 := by
  cases v with
  | const t n => cases hv
  | reg t r => exact .weaken (.pure _) rfl
  | mem t m hs =>
      refine .weaken (acquire_uses.bind fun _ => (?_ : Uses _ 0 0)) rfl
      split <;>
        exact .weaken ((instr_uses _).bind fun _ => (release_uses _).bind fun _ => .pure _) rfl

theorem moveExtended_uses (r : Register) (w : Width) (o : Operand) :
    Uses (moveExtended r w o) 0 0 := by
  unfold moveExtended
  split <;> exact instr_uses _

theorem extendIndex_uses {v : Value} (h : v.type.size = w.bytes) :
    Uses (extendIndex v) 1 1 := by
  refine .weaken ((scalarWidth_uses h).bind fun _ => (?_ : Uses _ 1 1)) rfl
  cases v with
  | reg t r =>
      simp only
      split
      · exact .weaken ((moveExtended_uses _ _ _).bind fun _ => .pure _) rfl
      · exact .weaken (.pure _) rfl
  | const t n | mem t m hs =>
      exact .weaken (acquire_uses.bind fun _ => (sizedOperand_uses h _).bind fun _ =>
        (moveExtended_uses _ _ _).bind fun _ => (discard_uses _).bind fun _ => .pure _) rfl

theorem scaledElement_uses (t : Ty) (base index : Register) :
    Uses (scaledElement t base index) 0 0 := by
  unfold scaledElement
  split
  · exact .pure _
  · exact .weaken ((instr_uses _).bind fun _ => .pure _) rfl

theorem elementAt_uses (t : Ty) (base : Register) {i : Value} (h : i.type.size = w.bytes) :
    Uses (elementAt t base (.value i)) 1 1 := by
  cases i with
  | const s n =>
      refine .weaken ((scalarWidth_uses h).bind fun _ => (?_ : Uses _ 1 1)) rfl
      unfold constantElement
      simp only
      split
      · exact .weaken (.pure _) rfl
      · exact .weaken (acquire_uses.bind fun _ => (instr_uses _).bind fun _ =>
          scaledElement_uses _ _ _) rfl
  | reg s q | mem s m hs =>
      exact .weaken ((extendIndex_uses h).bind fun _ => scaledElement_uses _ _ _) rfl

theorem element_uses {array index : Value} (ha : array.isConst = false)
    (ht : array.type.isIndexable = true) (h : index.type.size = w.bytes) :
    Uses (element (.value array) (.value index)) 2 2 := by
  obtain ⟨t, ht⟩ := Option.isSome_iff_exists.1 ht
  cases array with
  | const s n => cases ha
  | reg s q | mem s m hs =>
      simp only [element, ht]
      exact .weaken ((elementBase_uses rfl).bind fun _ => elementAt_uses _ _ h) rfl

theorem store_uses (m : Address) {v : Value} (h : v.type.size = w.bytes) :
    Uses (store w m v) 1 1 := by
  cases v with
  | mem t m' hs =>
      exact .weaken (withScratch_uses fun _ => (instr_uses _).bind fun _ => instr_uses _) rfl
  | const t n | reg t r =>
      simp only [store]
      split
      · exact .weaken (withScratch_uses fun _ => (operand_uses h).bind fun _ =>
          (instr_uses _).bind fun _ => instr_uses _) rfl
      · exact .weaken ((operand_uses h).bind fun _ => instr_uses _) rfl

theorem assignment_uses {t : Ty} {m : Address} {hs : List Register} {v : Value}
    (ht : t.isArray = false) (hv : t = v.type) :
    Uses (assignment (.value (.mem t m hs)) (.value v)) 1 1 := by
  obtain ⟨w, hw⟩ := Ty.exists_width ht
  refine .weaken ((scalarWidth_uses hw).bind fun {w'} _ _ hw' => (?_ : Uses _ 1 1)) rfl
  have hsize : t.size = w'.bytes := (scalarWidth_eq_ok.1 hw').1
  exact .weaken
    ((store_uses m (hv ▸ hsize)).bind fun _ => (discard_uses _).bind fun _ => .pure _) rfl

/-- The two procedures that every program can call. -/
def IsPredefined (p : Procedure) : Prop := Entity.procedure p ∈ predefined

theorem isPredefined_iff {p : Procedure} :
    IsPredefined p ↔ p = { name := "write_eln", routine := .writeEln } ∨
      p = { name := "d2i", routine := .digitToInt, params := [.builtin .char],
            returns := some (.builtin .byte) } := by
  simp [IsPredefined, predefined, Builtin.all]

theorem perform_uses {p : Procedure} {args : List Value} (hp : IsPredefined p)
    (hargs : args.map Value.type = p.params) : Uses (perform p (args.map Item.value)) 5 5 := by
  rcases isPredefined_iff.1 hp with rfl | rfl
  · exact .weaken ((reserving_uses ((instr_uses _).bind fun _ => (instr_uses _).bind fun _ =>
      (instr_uses _).bind fun _ => (instr_uses _).bind fun _ => instr_uses _)).bind fun _ =>
        .pure _) rfl
  · obtain ⟨arg, rfl, ht⟩ : ∃ arg, args = [arg] ∧ arg.type = .builtin .char := by
      simpa [List.map_eq_singleton_iff] using hargs
    have hsize : arg.type.size = Width.byte.bytes := by rw [ht]; rfl
    refine .weaken (Uses.bind (?_ : Uses _ 1 1) fun _ => .pure _) rfl
    exact .weaken (acquire_uses.bind fun _ => (operand_uses hsize).bind fun _ =>
      (instr_uses _).bind fun _ => (instr_uses _).bind fun _ => .pure _) rfl

theorem call_uses {p : Procedure} {args : List Value} (hp : IsPredefined p)
    (hargs : args.map Value.type = p.params) : Uses (call p (args.map Item.value)) 5 5 where
  fails {a e b} h := by
    unfold call at h
    simp only [tryFinally, tryFinally', Functor.map, EStateM.map] at h
    cases hrun : perform p (args.map Item.value) a with
    | ok i c =>
        simp only [hrun] at h
        rw [forM_discardItem] at h
        cases h
    | error e' c =>
        simp only [hrun] at h
        rw [forM_discardItem] at h
        cases h
        exact (perform_uses hp hargs).fails hrun
  costs {a v b} h := by
    obtain ⟨c, hrun, rfl⟩ := call_ok h
    have hcosts := (perform_uses hp hargs).costs hrun
    have hrelease := spare_le_release (a := c) ((args.map Item.value).flatMap Item.held)
    omega

end Emit

end Tern
