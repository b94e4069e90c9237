import Mathlib
import Tern.Emit.Frame

/-!
# Runs of emitting operations

An operation that succeeds is taken apart into its parts, each with the assembly that it
leaves.  Assemblies are compared by the lines behind them and by the registers in use; the
order in which registers became busy never matters.
-/

namespace Tern

section

variable {ε σ α β : Type} {s s' : σ}

theorem bind_eq_ok {x : EStateM ε σ α} {f : α → EStateM ε σ β} {v : β} :
    (x >>= f) s = .ok v s' ↔ ∃ u t, x s = .ok u t ∧ f u t = .ok v s' := by
  simp only [bind, EStateM.bind]
  cases x s with
  | ok u t =>
      constructor
      · exact fun h => ⟨u, t, rfl, h⟩
      · rintro ⟨u', t', h, h'⟩
        cases h
        exact h'
  | error e t => simp

theorem bind_of_ok {x : EStateM ε σ α} {v : α} (h : x s = .ok v s') (f : α → EStateM ε σ β) :
    (x >>= f) s = f v s' := by
  simp only [bind, EStateM.bind, h]

theorem bind_eq_error {x : EStateM ε σ α} {f : α → EStateM ε σ β} {e : ε} :
    (x >>= f) s = .error e s' ↔
      x s = .error e s' ∨ ∃ u t, x s = .ok u t ∧ f u t = .error e s' := by
  simp only [bind, EStateM.bind]
  cases x s with
  | ok u t =>
      constructor
      · exact fun h => .inr ⟨u, t, rfl, h⟩
      · rintro (h | ⟨u', t', h, h'⟩)
        · cases h
        · cases h
          exact h'
  | error e t => simp

theorem pure_eq_ok {v w : α} :
    (pure v : EStateM ε σ α) s = .ok w s' ↔ v = w ∧ s = s' := by
  simp [pure, EStateM.pure]

theorem pure_eq_error {v : α} {e : ε} :
    (pure v : EStateM ε σ α) s = .error e s' ↔ False := by
  simp [pure, EStateM.pure]

theorem throw_eq_ok {e : ε} {w : α} :
    (throw e : EStateM ε σ α) s = .ok w s' ↔ False := by
  simp [throw, throwThe, MonadExceptOf.throw, EStateM.throw]

theorem throw_eq_error {e e' : ε} :
    (throw e : EStateM ε σ α) s = .error e' s' ↔ e = e' ∧ s = s' := by
  simp [throw, throwThe, MonadExceptOf.throw, EStateM.throw]

theorem get_eq_ok {v : σ} :
    (get : EStateM ε σ σ) s = .ok v s' ↔ s = v ∧ s = s' := by
  simp [get, getThe, MonadStateOf.get, EStateM.get]

theorem get_eq_error {e : ε} : (get : EStateM ε σ σ) s = .error e s' ↔ False := by
  simp [get, getThe, MonadStateOf.get, EStateM.get]

theorem modify_eq_ok {f : σ → σ} {u : PUnit} :
    (modify f : EStateM ε σ PUnit) s = .ok u s' ↔ f s = s' := by
  simp [modify, modifyGet, MonadStateOf.modifyGet, EStateM.modifyGet]

theorem modify_eq_error {f : σ → σ} {e : ε} :
    (modify f : EStateM ε σ PUnit) s = .error e s' ↔ False := by
  simp [modify, modifyGet, MonadStateOf.modifyGet, EStateM.modifyGet]

end

namespace Assembly

def extend (a : Assembly) (code : List Instr) : Assembly :=
  { a with lines := a.lines ++ (code.map Line.instr).toArray }

variable {a : Assembly} {r q : Register}

@[simp] theorem busy_extend (code : List Instr) : (a.extend code).busy = a.busy := rfl

@[simp] theorem frames_extend (code : List Instr) : (a.extend code).frames = a.frames := rfl

@[simp] theorem lines_extend (code : List Instr) :
    (a.extend code).lines = a.lines ++ (code.map Line.instr).toArray := rfl

@[simp] theorem extend_nil : a.extend [] = a := by
  simp [extend]

@[simp] theorem extend_extend (code more : List Instr) :
    (a.extend code).extend more = a.extend (code ++ more) := by
  simp [extend, Array.append_assoc]

@[simp] theorem write_instr (i : Instr) : a.write (.instr i) = a.extend [i] := by
  simp [write, extend]

@[simp] theorem lines_occupy : (a.occupy r).lines = a.lines := by
  unfold occupy
  split <;> rfl

@[simp] theorem frames_occupy : (a.occupy r).frames = a.frames := by
  unfold occupy
  split <;> rfl

@[simp] theorem mem_busy_occupy : q ∈ (a.occupy r).busy ↔ q ∈ a.busy ∨ q = r := by
  unfold occupy
  split
  · next h =>
    have hr : r ∈ a.busy := by simpa using h
    constructor
    · exact .inl
    · rintro (hq | rfl)
      · exact hq
      · exact hr
  · simp

@[simp] theorem lines_occupyAll (rs : List Register) : (a.occupyAll rs).lines = a.lines := by
  induction rs generalizing a with
  | nil => rfl
  | cons r rs ih =>
      rw [occupyAll, List.foldl_cons]
      exact ih.trans lines_occupy

@[simp] theorem frames_occupyAll (rs : List Register) :
    (a.occupyAll rs).frames = a.frames := by
  induction rs generalizing a with
  | nil => rfl
  | cons r rs ih =>
      rw [occupyAll, List.foldl_cons]
      exact ih.trans frames_occupy

@[simp] theorem mem_busy_occupyAll (rs : List Register) :
    q ∈ (a.occupyAll rs).busy ↔ q ∈ a.busy ∨ q ∈ rs := by
  induction rs generalizing a with
  | nil => simp [occupyAll]
  | cons r rs ih =>
      have h : (a.occupyAll (r :: rs)) = (a.occupy r).occupyAll rs := rfl
      rw [h, ih, mem_busy_occupy, List.mem_cons]
      exact or_assoc

@[simp] theorem lines_release (rs : List Register) : (a.release rs).lines = a.lines := rfl

@[simp] theorem frames_release (rs : List Register) : (a.release rs).frames = a.frames := rfl

@[simp] theorem mem_busy_release (rs : List Register) :
    q ∈ (a.release rs).busy ↔ q ∈ a.busy ∧ q ∉ rs := by
  simp [release]

@[simp] theorem release_nil : a.release [] = a := by
  have h : a.busy.filter (fun r => !([] : List Register).contains r) = a.busy :=
    List.filter_eq_self.2 (by simp)
  rw [release, h]

@[simp] theorem release_release (rs qs : List Register) :
    (a.release rs).release qs = a.release (rs ++ qs) := by
  simp [release, List.filter_filter, Bool.and_comm]

theorem firstFree?_eq_some (h : a.firstFree? = some r) : r ∈ Register.pool ∧ r ∉ a.busy := by
  refine ⟨List.mem_of_find?_eq_some h, ?_⟩
  have hfree := List.find?_some h
  simpa using hfree

end Assembly

namespace Emit

variable {a b : Assembly} {e : Fault}

theorem instr_eq_ok {i : Instr} {u : Unit} : instr i a = .ok u b ↔ a.extend [i] = b := by
  rw [instr, write, modify_eq_ok, Assembly.write_instr]

theorem instr_eq_error {i : Instr} : instr i a = .error e b ↔ False := modify_eq_error

theorem release_eq_ok {rs : List Register} {u : Unit} :
    release rs a = .ok u b ↔ a.release rs = b := modify_eq_ok

theorem release_eq_error {rs : List Register} : release rs a = .error e b ↔ False :=
  modify_eq_error

theorem discard_eq_ok {v : Value} {u : Unit} :
    discard v a = .ok u b ↔ a.release v.held = b := modify_eq_ok

theorem acquire_eq_ok {r : Register} :
    acquire a = .ok r b ↔ a.firstFree? = some r ∧ a.occupy r = b := by
  rw [acquire_apply]
  cases a.firstFree? with
  | none => simp
  | some q =>
      constructor
      · intro h
        cases h
        exact ⟨rfl, rfl⟩
      · rintro ⟨hq, rfl⟩
        cases hq
        rfl

theorem acquire_eq_error : acquire a = .error e b → e = .poolExhausted := by
  rw [acquire_apply]
  cases a.firstFree? with
  | none =>
      intro h
      cases h
      rfl
  | some q => simp

theorem withScratch_eq_ok {α : Type} {body : Register → Emit α} {v : α} :
    withScratch body a = .ok v b ↔
      ∃ r c, a.firstFree? = some r ∧ body r (a.occupy r) = .ok v c ∧ c.release [r] = b := by
  rw [withScratch_apply, acquire_apply]
  cases a.firstFree? with
  | none => simp
  | some r =>
      simp only [Option.some.injEq, exists_and_left, exists_eq_left']
      cases body r (a.occupy r) with
      | error e c => simp
      | ok u c =>
          constructor
          · intro h
            cases h
            exact ⟨c, rfl, rfl⟩
          · rintro ⟨c', h, rfl⟩
            cases h
            rfl

/-- The registers of `rs` that a reservation saves on the stack. -/
def saved (rs : List Register) (a : Assembly) : List Register :=
  rs.filter fun r => a.busy.contains r

/-- The registers of `rs` that a reservation keeps from being handed out. -/
def blocked (rs : List Register) (a : Assembly) : List Register :=
  rs.filter fun r => !a.busy.contains r

@[simp] theorem mem_saved {rs : List Register} {r : Register} :
    r ∈ saved rs a ↔ r ∈ rs ∧ r ∈ a.busy := by
  simp [saved]

@[simp] theorem mem_blocked {rs : List Register} {r : Register} :
    r ∈ blocked rs a ↔ r ∈ rs ∧ r ∉ a.busy := by
  simp [blocked]

theorem forM_instr (f : Register → Instr) (rs : List Register) :
    (rs.forM fun r => instr (f r)) a = .ok () (a.extend (rs.map f)) := by
  induction rs generalizing a with
  | nil => simp [List.forM, pure, EStateM.pure]
  | cons r rs ih =>
      change (instr (f r) >>= fun _ => rs.forM fun r => instr (f r)) a = _
      rw [bind_eq_ok]
      refine ⟨(), a.extend [f r], instr_eq_ok.2 rfl, ?_⟩
      rw [ih, Assembly.extend_extend, List.map_cons, List.singleton_append]

theorem reserve_apply (rs : List Register) :
    reserve rs a = .ok ⟨saved rs a, blocked rs a⟩
      ((a.extend ((saved rs a).map .push)).occupyAll (blocked rs a)) := by
  unfold reserve
  rw [bind_eq_ok]
  refine ⟨a, a, get_eq_ok.2 ⟨rfl, rfl⟩, ?_⟩
  rw [bind_eq_ok]
  refine ⟨(), _, forM_instr .push (saved rs a), ?_⟩
  rw [bind_eq_ok]
  exact ⟨(), _, modify_eq_ok.2 rfl, rfl⟩

theorem restore_apply (s : Reservation) :
    restore s a = .ok () ((a.release s.blocked).extend (s.saved.reverse.map .pop)) := by
  unfold restore
  rw [bind_eq_ok]
  exact ⟨(), _, release_eq_ok.2 rfl, forM_instr .pop s.saved.reverse⟩

theorem reserving_eq_ok {α : Type} {rs : List Register} {body : Emit α} {v : α} :
    reserving rs body a = .ok v b ↔
      ∃ c, body ((a.extend ((saved rs a).map .push)).occupyAll (blocked rs a)) = .ok v c ∧
        (c.release (blocked rs a)).extend ((saved rs a).reverse.map .pop) = b := by
  rw [reserving_apply, reserve_apply]
  simp only
  cases body ((a.extend ((saved rs a).map .push)).occupyAll (blocked rs a)) with
  | error e c => simp
  | ok u c =>
      simp only [restore_apply]
      constructor
      · intro h
        cases h
        exact ⟨c, rfl, rfl⟩
      · rintro ⟨c', h, rfl⟩
        cases h
        rfl

theorem scalarWidth_eq_ok {t : Ty} {w : Width} :
    scalarWidth t a = .ok w b ↔ t.size = w.bytes ∧ a = b := by
  unfold scalarWidth
  cases h : Width.ofBytes? t.size with
  | none =>
      simp only [throw_eq_ok, false_iff, not_and]
      intro ht
      rw [Width.ofBytes?_eq_some_iff.2 ht] at h
      cases h
  | some w' =>
      simp only [pure_eq_ok]
      rw [← Width.ofBytes?_eq_some_iff, h, Option.some.injEq]

theorem scalarWidth_eq_error {t : Ty} {w : Width} (ht : t.size = w.bytes) :
    scalarWidth t a = .error e b ↔ False := by
  unfold scalarWidth
  rw [Width.ofBytes?_eq_some_iff.2 ht]
  exact pure_eq_error

end Emit

namespace Value

/-- The operand `o` spells the value `v`. -/
def Spelt (v : Value) (o : Operand) : Prop :=
  match v with
  | .const t n => ∃ w : Width, t.size = w.bytes ∧ o = .imm (Word.signed w.bytes n)
  | .reg t r => ∃ w : Width, t.size = w.bytes ∧ o = .reg r w
  | .mem _ m _ => o = .mem none m

/-- The operand `o` spells the value `v` together with the size `w` of a memory operand. -/
def SpeltSized (v : Value) (w : Width) (o : Operand) : Prop :=
  match v with
  | .mem _ m _ => o = .mem (some w) m
  | v => v.Spelt o

/-- The operand `o` spells the low byte of the value `v`, or the value itself where it is not
in a register. -/
def SpeltCount (v : Value) (o : Operand) : Prop :=
  match v with
  | .reg _ r => o = .reg r .byte
  | v => v.Spelt o

end Value

namespace Emit

variable {a b : Assembly}

theorem operand_eq_ok {v : Value} {o : Operand} :
    operand v a = .ok o b ↔ v.Spelt o ∧ a = b := by
  cases v with
  | const t n =>
      simp only [operand, bind_eq_ok, scalarWidth_eq_ok, pure_eq_ok, Value.Spelt]
      constructor
      · rintro ⟨w, c, ⟨ht, rfl⟩, rfl, rfl⟩
        exact ⟨⟨w, ht, rfl⟩, rfl⟩
      · rintro ⟨⟨w, ht, rfl⟩, rfl⟩
        exact ⟨w, a, ⟨ht, rfl⟩, rfl, rfl⟩
  | reg t r =>
      simp only [operand, bind_eq_ok, scalarWidth_eq_ok, pure_eq_ok, Value.Spelt]
      constructor
      · rintro ⟨w, c, ⟨ht, rfl⟩, rfl, rfl⟩
        exact ⟨⟨w, ht, rfl⟩, rfl⟩
      · rintro ⟨⟨w, ht, rfl⟩, rfl⟩
        exact ⟨w, a, ⟨ht, rfl⟩, rfl, rfl⟩
  | mem t m hs =>
      simp only [operand, pure_eq_ok, Value.Spelt]
      rw [eq_comm]

theorem sizedOperand_eq_ok {v : Value} {w : Width} {o : Operand} :
    sizedOperand v w a = .ok o b ↔ v.SpeltSized w o ∧ a = b := by
  unfold sizedOperand Value.SpeltSized
  cases v with
  | mem t m hs =>
      simp only [pure_eq_ok]
      rw [eq_comm]
  | const t n | reg t r => exact operand_eq_ok

end Emit

end Tern
