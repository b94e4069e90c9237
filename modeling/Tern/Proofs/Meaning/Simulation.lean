import Tern.Proofs.Machine.Access
import Tern.Proofs.Meaning.Constants

/-!
# Simulation of operations

The machine follows a run when it has the same bytes in memory, except those that are barred, and
the same output.  A value of the compiler denotes a datum of the run when it holds
the number, or when its address is the location.  Every operation on values keeps step with the
operation on the data that they denote.
-/

namespace Tern

namespace Meaning

open Machine Assembly

variable {α β : Type} {p : Platform} {ctx : Context} {fr : Frame} {sp : Addr} {a b c : Assembly}
  {s t u : State} {w : World} {used made more : List Register} {v lhs rhs : Value}
  {d l r : Datum}

/-! ## Results of runs -/

/-- A run that ends satisfies `P`, and one that divides by zero `F`.  Nothing is said of a run
that strays, and no run is stuck. -/
def Ends (result : EStateM.Result Stop World α) (P : α → World → Prop) (F : World → Prop) : Prop :=
  match result with
  | .ok x w => P x w
  | .error .divisionByZero w => F w
  | .error .stray _ => True
  | .error .stuck _ => False

theorem Ends.bind {x : Run α} {f : α → Run β} {P : α → World → Prop} {Q : β → World → Prop}
    {F G : World → Prop} (h : Ends (x w) P F) (hfault : ∀ w, F w → G w)
    (hok : ∀ y w', P y w' → Ends (f y w') Q G) : Ends ((x >>= f) w) Q G := by
  simp only [Bind.bind, EStateM.bind]
  cases hx : x w with
  | ok y w' =>
      rw [hx] at h
      exact hok y w' h
  | error e w' =>
      rw [hx] at h
      cases e with
      | divisionByZero => exact hfault w' h
      | stray => trivial
      | stuck => exact h

theorem Ends.imp {result : EStateM.Result Stop World α} {P Q : α → World → Prop}
    {F G : World → Prop} (h : Ends result P F) (hok : ∀ y w, P y w → Q y w)
    (hfault : ∀ w, F w → G w) : Ends result Q G := by
  cases result with
  | ok y w => exact hok y w h
  | error e w =>
      cases e with
      | divisionByZero => exact hfault w h
      | stray => trivial
      | stuck => exact h

/-! ## The machine and the run -/

/-- The stack pointer and the frame pointer while the statements of a program run. -/
structure Frame where
  sp : Addr
  fp : Addr

/-- The bytes that saving registers below `sp` overwrites are barred. -/
def Context.Guards (ctx : Context) (sp : Addr) : Prop :=
  ∀ x, ctx.barred x = false → Sheltered sp x

theorem Context.Guards.shelteredAt {x : Addr} {k : Nat} (h : ctx.Guards sp)
    (hx : ctx.Clear x k) : ShelteredAt sp x k := fun i hi => h _ (hx i hi)

/-- The machine has the memory of the run, except where it is barred, and its output. -/
structure Mirrors (ctx : Context) (s : State) (w : World) : Prop where
  mem : ∀ x, ctx.barred x = false → s.mem x = w.mem x
  output : s.output = w.output

theorem Mirrors.agrees {keep : Register → Prop} (h : Mirrors ctx s w) (hguards : ctx.Guards sp)
    (hagrees : Agrees keep sp s t) : Mirrors ctx t w where
  mem x hx := (hagrees.mem x (hguards x hx)).trans (h.mem x hx)
  output := hagrees.output.trans h.output

/-- The machine is where the run is. -/
structure Follows (ctx : Context) (fr : Frame) (s : State) (w : World) : Prop
    extends Mirrors ctx s w where
  guards : ctx.Guards fr.sp
  rsp : s.regs .rsp = fr.sp
  rbp : s.regs .rbp = fr.fp

theorem Follows.reaches (h : Follows ctx fr s w) (hreaches : Reaches p fr.sp a used s b t) :
    Follows ctx fr t w where
  toMirrors := h.toMirrors.agrees h.guards hreaches.agrees
  guards := h.guards
  rsp := hreaches.rsp.trans h.rsp
  rbp := (hreaches.agrees.regs _ kept_rbp).trans h.rbp

theorem Follows.load {x : Addr} {k : Nat} (h : Follows ctx fr s w) (hx : ctx.Clear x k) :
    Machine.load w.mem x k = Machine.load s.mem x k :=
  load_congr fun i hi => (h.mem _ (hx i hi)).symm

/-- The value `v` stands for the datum: a place in memory for a location, anything else for a
number. -/
def Denotes (p : Platform) (sp : Addr) (s : State) (v : Value) : Datum → Prop
  | .void => False
  | .number t n => v.type = t ∧ (∀ ty m hs, v ≠ .mem ty m hs) ∧ Holds p sp s v n
  | .location t x => ∃ m hs, v = .mem t m hs ∧ s.address p m = x

theorem denotes_number {ty : Ty} {q : Register} {n : Nat} (h : Holds p sp s (.reg ty q) n) :
    Denotes p sp s (.reg ty q) (.number ty n) := ⟨rfl, nofun, h⟩

theorem fetch_ends (h : Denotes p fr.sp s v d) (hf : Follows ctx fr s w)
    (harray : v.type.isArray = false) :
    Ends (fetch ctx d w) (fun x w' => w' = w ∧ x.1 = v.type ∧ Holds p fr.sp s v x.2)
      fun _ => False := by
  cases d with
  | void => exact h
  | number ty n => exact ⟨rfl, h.1.symm, h.2.2⟩
  | location ty x =>
      obtain ⟨m, hs, rfl, rfl⟩ := h
      have harray' : ty.isArray = false := harray
      simp only [fetch, harray', Bool.false_eq_true, if_false]
      split
      · next hx => exact ⟨rfl, rfl, hf.load hx, hf.guards.shelteredAt hx⟩
      · trivial

theorem Denotes.mem {ty : Ty} {m : Address} {hs : List Register}
    (h : Denotes p sp s (.mem ty m hs) d) : d = .location ty (s.address p m) := by
  cases d with
  | void => exact h.elim
  | number t n => exact absurd rfl (h.2.1 ty m hs)
  | location t x =>
      obtain ⟨_, _, heq, rfl⟩ := h
      cases heq
      rfl

theorem elements_ends {ty e : Ty} {m : Address} {hs : List Register}
    (h : Denotes p fr.sp s (.mem ty m hs) d) (hf : Follows ctx fr s w)
    (he : ty.element? = some e) :
    Ends (elements ctx d w)
      (fun x w' => w' = w ∧ x.1 = e ∧ Starts p fr.sp s (.mem ty m hs) x.2) fun _ => False := by
  obtain rfl := h.mem
  cases ty with
  | builtin b => cases he
  | array base k =>
      cases he
      exact ⟨rfl, rfl, .inl ⟨e, k, m, hs, rfl, rfl⟩⟩
  | pointer base =>
      cases he
      refine (fetch_ends h hf rfl).bind (fun _ h => h) ?_
      rintro ⟨t, n⟩ w' ⟨rfl, rfl, hn⟩
      have hlt : n < 2 ^ 64 := hn.lt
      refine ⟨rfl, rfl, .inr ⟨rfl, ?_⟩⟩
      rw [BitVec.toNat_ofNat, Nat.mod_eq_of_lt hlt]
      exact hn

/-! ## Keeping step -/

/-- From `a` to `b` the machine, in the state `s`, keeps step with a run that leaves the world as
it is: it reaches a state with `P`, or both divide by zero. -/
def Simulates (p : Platform) (sp : Addr) (a : Assembly) (used : List Register) (s : State)
    (b : Assembly) (w : World) (x : Run α) (P : α → State → Prop) : Prop :=
  Ends (x w) (fun y w' => w' = w ∧ ∃ t, Reaches p sp a used s b t ∧ P y t)
    fun w' => w' = w ∧ Faults p sp a s b

namespace Simulates

variable {x : Run α} {f : α → Run β} {P Q : α → State → Prop} {R : β → State → Prop}

theorem still {y : α} (h : x w = .ok y w) (hy : P y s) : Simulates p sp a used s a w x P := by
  rw [Simulates, h]
  exact ⟨rfl, s, .refl, hy⟩

/-- A look at the world, for which the machine does nothing. -/
theorem look {Z : α → Prop} (h : Ends (x w) (fun y w' => w' = w ∧ Z y) fun _ => False)
    (hf : ∀ y, Z y → Simulates p sp a used s b w (f y) R) :
    Simulates p sp a used s b w (x >>= f) R := by
  refine Ends.bind h (fun _ h => h.elim) ?_
  rintro y w' ⟨rfl, hy⟩
  exact hf y hy

theorem reached {y : α} (h : Reaches p sp a used s b t) (hx : x w = .ok y w) (hy : P y t) :
    Simulates p sp a used s b w x P := by
  rw [Simulates, hx]
  exact ⟨rfl, t, h, hy⟩

end Simulates

/-! ## Operations -/

theorem reference_simulates {ty : Ty} {m : Address} {hs : List Register}
    (h : Emit.reference (.value (.mem ty m hs)) a = .ok v b)
    (hd : Denotes p sp s (.mem ty m hs) d) :
    Simulates p sp a hs s b w (reference d) fun x t => Denotes p sp t v x := by
  obtain rfl := hd.mem
  obtain ⟨htype, t, hreaches, hholds⟩ := reference_reaches h
  obtain ⟨_, _, _, q, -, -, rfl, -⟩ := Emit.reference_ok h
  cases htype
  exact .reached hreaches rfl (denotes_number hholds)

theorem negate_simulates (h : Emit.negate (.value v) a = .ok lhs b)
    (hd : Denotes p fr.sp s v d) (hf : Follows ctx fr s w) (harray : v.type.isArray = false) :
    Simulates p fr.sp a v.held s b w (negate ctx d) fun x t => Denotes p fr.sp t lhs x := by
  refine .look (fetch_ends hd hf harray) ?_
  rintro ⟨ty, n⟩ ⟨rfl, hn⟩
  obtain ⟨t, hreaches, hholds⟩ := negate_reaches h hn
  obtain ⟨_, q, _, _, hv, -, -, -, -, rfl, -⟩ := Emit.negate_ok h
  cases hv
  exact .reached hreaches rfl (denotes_number hholds)

theorem convert_simulates {ty : Ty} (h : Emit.convert v ty a = .ok lhs b)
    (hd : Denotes p fr.sp s v d) (hf : Follows ctx fr s w) (hpool : a.Pooled)
    (hown : a.Owns v.held) (hclosed : v.Closed) (harray : v.type.isArray = false)
    (harray' : ty.isArray = false) (hmem : ∀ t m hs, lhs ≠ .mem t m hs) :
    Simulates p fr.sp a v.held s b w (convert ctx d ty) fun x t => Denotes p fr.sp t lhs x := by
  obtain ⟨w₁, hw₁⟩ := Ty.exists_width harray
  obtain ⟨w₂, hw₂⟩ := Ty.exists_width harray'
  refine .look (fetch_ends hd hf harray) ?_
  rintro ⟨ty', n⟩ ⟨rfl, hn⟩
  obtain ⟨t, hreaches, hholds⟩ := convert_reaches h hpool hown hclosed hw₁ hw₂ hn
  exact .reached hreaches rfl ⟨Emit.convert_type h, hmem, hholds⟩

theorem cast_simulates {ty : Ty} (h : Emit.convert v ty a = .ok lhs b)
    (hd : Denotes p fr.sp s v d) (hf : Follows ctx fr s w) (hpool : a.Pooled)
    (hown : a.Owns v.held) (hclosed : v.Closed) (harray : v.type.isArray = false)
    (harray' : ty.isArray = false) :
    Simulates p fr.sp a v.held s b w (cast ctx d ty) fun x t => Denotes p fr.sp t lhs x := by
  have hconvert := convert_simulates h hd hf hpool hown hclosed harray harray'
  unfold cast
  rw [if_neg (by simp [harray'])]
  cases d with
  | void => exact hd.elim
  | number ty' n =>
      refine hconvert fun t m hs heq => ?_
      subst heq
      rcases Emit.convert_ok h with ⟨-, heq, -⟩ | ⟨-, h⟩
      · cases v with
        | const | reg => cases heq
        | mem => exact hd.2.1 _ _ _ rfl
      · rcases Emit.resize_ok h with ⟨_, _, -, heq, -⟩ | ⟨_, _, _, _, _, -, heq, -⟩ <;> cases heq
  | location ty' x =>
      obtain ⟨m, hs, rfl, rfl⟩ := hd
      have hscalar : ty'.isArray = false := harray
      rcases Emit.convert_ok h with ⟨hsize, rfl, rfl⟩ | ⟨hsize, hresize⟩
      · simp only [hscalar, show ty'.size = ty.size from hsize, and_self, if_true]
        exact .still rfl ⟨m, hs, rfl, rfl⟩
      · have hne : ¬ty'.size = ty.size := hsize
        simp only [hscalar, hne, and_false, if_false]
        refine hconvert fun t m' hs' heq => ?_
        subst heq
        rcases Emit.resize_ok hresize with ⟨_, _, -, heq, -⟩ | ⟨_, _, _, _, _, -, heq, -⟩ <;>
          cases heq

theorem binary_simulates {op : BinaryOp} (h : Compile.operate op lhs rhs a = .ok v b)
    (hadmits : lhs.type.admitsWith op rhs.type = true) (hl : Denotes p fr.sp s lhs l)
    (hr : Denotes p fr.sp s rhs r) (hf : Follows ctx fr s w) (hpool : a.Pooled)
    (hown : a.Owns (lhs.held ++ rhs.held)) (hlclosed : lhs.Closed) (hrclosed : rhs.Closed) :
    Simulates p fr.sp a (lhs.held ++ rhs.held) s b w (binary ctx op l r)
      fun x t => Denotes p fr.sp t v x := by
  obtain ⟨hlarray, hrarray⟩ := Emit.admitsWith_scalar hadmits
  refine .look (fetch_ends hl hf hlarray) ?_
  rintro ⟨lt, x⟩ ⟨rfl, hx⟩
  refine .look (fetch_ends hr hf hrarray) ?_
  rintro ⟨rt, y⟩ ⟨rfl, hy⟩
  have hyields := operate_yields h hadmits hpool hown hlclosed hrclosed hf.rsp hx hy
  have htype := Emit.operate_type h
  obtain ⟨ty, q, rfl⟩ := Emit.operate_eq_reg h
  cases htype
  simp only
  cases hresult : op.result? (lhs.type.wider rhs.type).size x y with
  | none =>
      rw [hresult] at hyields
      exact ⟨rfl, hyields⟩
  | some n =>
      rw [hresult] at hyields
      obtain ⟨t, hreaches, hholds⟩ := hyields
      exact .reached hreaches rfl (denotes_number hholds)

theorem element_simulates {ty e : Ty} {m : Address} {hs : List Register}
    (h : Emit.element (.value (.mem ty m hs)) (.value rhs) a = .ok v b)
    (hl : Denotes p fr.sp s (.mem ty m hs) l) (hr : Denotes p fr.sp s rhs r)
    (hf : Follows ctx fr s w) (hpool : a.Pooled) (hown : a.Owns (hs ++ rhs.held))
    (hrclosed : rhs.Closed) (he : ty.element? = some e) (hsize : e.size < 2 ^ 31)
    (harray : rhs.type.isArray = false) :
    Simulates p fr.sp a (hs ++ rhs.held) s b w (element ctx l r)
      fun x t => Denotes p fr.sp t v x := by
  refine .look (elements_ends hl hf he) ?_
  rintro ⟨t, x⟩ ⟨rfl, hx⟩
  refine .look (fetch_ends hr hf harray) ?_
  rintro ⟨_, i⟩ ⟨rfl, hi⟩
  obtain ⟨u, m', hs', hreaches, rfl, haddress⟩ :=
    element_reaches h hpool hown hrclosed he hsize hx hi
  exact .reached hreaches rfl ⟨m', hs', rfl, haddress⟩

theorem call_sized {q : Procedure} {args : List Item}
    (h : Emit.call q args a = .ok (.value v) b) (hq : Emit.IsPredefined q) : v.type.Sized := by
  obtain heq | ⟨ty, r, hreturns, heq⟩ := Emit.call_eq_reg h
  · cases heq
  · cases heq
    rcases Emit.isPredefined_iff.1 hq with rfl | rfl <;> cases hreturns
    trivial

/-- A call that has a value: only `d2i` does. -/
theorem call_simulates {q : Procedure} {args : List Value} {ds : List Datum}
    (h : Emit.call q (args.map Item.value) a = .ok (.value v) b) (hq : Emit.IsPredefined q)
    (htypes : args.map Value.type = q.params)
    (hds : List.Forall₂ (Denotes p fr.sp s) args ds) (hf : Follows ctx fr s w) :
    Simulates p fr.sp a (args.flatMap Value.held) s b w (call ctx q.routine ds)
      fun x t => Denotes p fr.sp t v x := by
  obtain ⟨c, hperform, rfl⟩ := Emit.call_ok h
  rcases Emit.isPredefined_iff.1 hq with rfl | rfl
  · rcases Emit.perform_ok hperform with ⟨-, hv, -⟩ | ⟨_, _, _, _, hroutine, -⟩
    · cases hv
    · cases hroutine
  · obtain ⟨arg, rfl, ht⟩ : ∃ arg, args = [arg] ∧ arg.type = .builtin .char := by
      simpa [List.map_eq_singleton_iff] using htypes
    obtain ⟨d, _, hd, hnil, rfl⟩ := List.forall₂_cons_left_iff.1 hds
    obtain rfl := List.forall₂_nil_left_iff.1 hnil
    rcases Emit.perform_ok hperform with ⟨hroutine, -⟩ | ⟨_, _, ty, x, -, harg, hty, hx, hdigit⟩
    · cases hroutine
    · cases harg
      cases hty
      cases hx
      have hchar : arg.type.size = 1 := by rw [ht]; rfl
      obtain ⟨_, q, _, -, -, -, rfl, -⟩ := Emit.digitValue_ok hdigit
      refine .look (fetch_ends hd hf (by rw [ht]; rfl)) ?_
      rintro ⟨ty', n⟩ ⟨-, hn⟩
      obtain ⟨-, t, hreaches, hholds⟩ := digitValue_reaches hdigit hchar rfl hn
      exact .reached ((hreaches.weaken (by simp)).lines rfl) rfl (denotes_number hholds)

end Meaning

end Tern
