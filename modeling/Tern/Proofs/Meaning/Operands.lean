import Tern.Proofs.Meaning.Program

/-!
# When operands are loaded

The code of an operator works out its left operand, then its right one, and then it operates.
An operand that was computed is in a register by then and keeps its value; so does one that was
cast to another size.  An operand that is a place in memory is only loaded at the end, so an
assignment inside the right operand that stores to the place changes the left operand.  Nothing
else does: adding a zero to the left operand, which puts it into a register, makes no difference
as long as the bytes of the place stay.
-/

namespace Tern

namespace Meaning

open Machine Assembly

variable {α β : Type} {p : Platform} {ctx : Context} {fr : Frame} {c d : Compilation} {s : State}
  {w w' : World} {v : Value} {m m' : Datum} {t : Ty} {n : Nat} {op : BinaryOp} {pos : Position}
  {l l' r : Expr} {t' : Ty}

/-! ## Numbers of data -/

/-- A number is fetched from the datum itself, or from a place with no barred byte. -/
theorem fetch_ok (h : fetch ctx m w = .ok (t, n) w') :
    w' = w ∧ (m = .number t n ∨ ∃ a, m = .location t a ∧ t.isArray = false ∧
      ctx.Clear a t.size ∧ n = load w.mem a t.size) := by
  cases m with
  | void => cases h
  | number =>
      cases h
      exact ⟨rfl, .inl rfl⟩
  | location t' a =>
      rw [fetch] at h
      by_cases harray : t'.isArray = true
      · rw [if_pos harray] at h
        cases h
      · by_cases hclear : ctx.Clear a t'.size
        · rw [if_neg harray, if_pos hclear] at h
          cases h
          exact ⟨rfl, .inr ⟨a, rfl, by simpa using harray, hclear, rfl⟩⟩
        · rw [if_neg harray, if_neg hclear] at h
          cases h

theorem fetch_location {a : Addr} (harray : t.isArray = false)
    (hclear : ctx.Clear a t.size) (w : World) :
    fetch ctx (.location t a) w = .ok (t, load w.mem a t.size) w := by
  rw [fetch, if_neg (by simp [harray]), if_pos hclear]
  rfl

/-- What has a number in one world has one of the same type in every world. -/
theorem fetch_elsewhere (h : fetch ctx m w = .ok (t, n) w') (w₁ : World) :
    ∃ k, fetch ctx m w₁ = .ok (t, k) w₁ := by
  obtain ⟨-, rfl | ⟨a, rfl, harray, hclear, -⟩⟩ := fetch_ok h
  · exact ⟨n, rfl⟩
  · exact ⟨_, fetch_location harray hclear w₁⟩

theorem fetch_ne_divisionByZero : fetch ctx m w ≠ .error .divisionByZero w' := by
  intro h
  cases m with
  | void | number => cases h
  | location t a =>
      rw [fetch] at h
      by_cases harray : t.isArray = true
      · rw [if_pos harray] at h
        cases h
      · by_cases hclear : ctx.Clear a t.size
        · rw [if_neg harray, if_pos hclear] at h
          cases h
        · rw [if_neg harray, if_neg hclear] at h
          cases h

/-- A cast leaves a place where it is if it keeps the size, and makes a number of all else. -/
theorem cast_ok (h : cast ctx m t w = .ok m' w') :
    (∃ u a, m = .location u a ∧ u.size = t.size ∧ m' = .location t a) ∨
      (m ≠ .void ∧ (∀ u a, m = .location u a → u.size ≠ t.size) ∧ ∃ n, m' = .number t n) := by
  unfold cast at h
  split at h
  · cases h
  · cases m with
    | void => cases h
    | number u n =>
        cases h
        exact .inr ⟨by simp, by simp, _, rfl⟩
    | location u b =>
        simp only at h
        split at h
        · next hkeeps =>
          cases h
          exact .inl ⟨u, b, rfl, hkeeps.2, rfl⟩
        · next hkeeps =>
          simp only [convert, bind_eq_ok, pure_eq_ok] at h
          obtain ⟨⟨u', n⟩, _, hfetch, rfl, -⟩ := h
          refine .inr ⟨by simp, ?_, _, rfl⟩
          rintro _ _ ⟨⟩ hsize
          obtain ⟨-, heq | ⟨a, heq, harray, -⟩⟩ := fetch_ok hfetch
          · cases heq
          · cases heq
            exact hkeeps ⟨harray, hsize⟩

theorem call_ne_location {q : Routine} {ds : List Datum} {a : Addr} :
    call ctx q ds w ≠ .ok (.location t a) w' := by
  intro h
  unfold call at h
  split at h
  · unfold writeLine at h
    split at h <;> cases h
  · simp only [bind_eq_ok, pure_eq_ok] at h
    obtain ⟨_, _, -, h, -⟩ := h
    cases h
  · cases h

theorem binary_ne_location {x y : Datum} {a : Addr} :
    binary ctx op x y w ≠ .ok (.location t a) w' := by
  intro h
  simp only [binary, bind_eq_ok] at h
  obtain ⟨⟨lt, x⟩, _, -, ⟨rt, y⟩, _, -, h⟩ := h
  cases hresult : op.result? (lt.wider rt).size x y with
  | none => simp [hresult, throw_eq_ok] at h
  | some n =>
      simp only [hresult, pure_eq_ok] at h
      cases h.1

theorem binary_of_some {x y : Datum} {lt rt : Ty} {j k : Nat}
    (hx : fetch ctx x w = .ok (lt, j) w) (hy : fetch ctx y w = .ok (rt, k) w)
    (h : op.result? (lt.wider rt).size j k = some n) :
    binary ctx op x y w = .ok (.number (lt.wider rt) n) w := by
  rw [binary, bind_of_ok hx]
  simp only
  rw [bind_of_ok hy]
  simp only [h]
  rfl

theorem binary_of_none {x y : Datum} {lt rt : Ty} {j k : Nat}
    (hx : fetch ctx x w = .ok (lt, j) w) (hy : fetch ctx y w = .ok (rt, k) w)
    (h : op.result? (lt.wider rt).size j k = none) :
    binary ctx op x y w = .error .divisionByZero w := by
  rw [binary, bind_of_ok hx]
  simp only
  rw [bind_of_ok hy]
  simp only [h]
  rfl

/-- An addition leaves the world as it is and does not divide. -/
theorem add_result {x y : Datum} :
    (∀ z, binary ctx .add x y w = .ok z w' → w' = w) ∧
      binary ctx .add x y w ≠ .error .divisionByZero w' := by
  constructor
  · intro z h
    simp only [binary, bind_eq_ok, BinaryOp.result?, pure_eq_ok] at h
    obtain ⟨_, w₁, hx, _, w₂, hy, -, rfl⟩ := h
    rw [(fetch_ok hy).1, (fetch_ok hx).1]
  · intro h
    simp only [binary, bind_eq_error, BinaryOp.result?] at h
    obtain hx | ⟨_, _, -, hy | ⟨_, _, -, h⟩⟩ := h
    · exact fetch_ne_divisionByZero hx
    · exact fetch_ne_divisionByZero hy
    · cases h

/-! ## Places -/

def Datum.type? : Datum → Option Ty
  | .void => none
  | .number t _ | .location t _ => some t

/-- The type has the size of the operand. -/
def KeepsSize (ctx : Context) (w : World) (operand : Expr) (te : TypeExpr) : Prop :=
  ∃ m w₁ u t w₂, expr ctx operand w = .ok m w₁ ∧ m.type? = some u ∧
    type ctx te w₁ = .ok t w₂ ∧ u.size = t.size

/-- The expression stands for a place in memory: a name, an element or an assignment, also in
parentheses or cast to a type of the same size. -/
def IsPlace (ctx : Context) (w : World) : Expr → Prop
  | .name _ | .element _ | .assign .. => True
  | .paren _ inner _ => IsPlace ctx w inner
  | .cast operand _ te => IsPlace ctx w operand ∧ KeepsSize ctx w operand te
  | _ => False

theorem isPlace_of_location : ∀ {l : Expr} {w w' : World} {t : Ty} {a : Addr},
    expr ctx l w = .ok (.location t a) w' → IsPlace ctx w l
  | .missing _, _, _, _, _, h => by cases h
  | .integer .., _, _, _, _, h => by cases h
  | .char .., _, _, _, _, h => by cases h
  | .name _, _, _, _, _, _ => trivial
  | .element _, _, _, _, _, _ => trivial
  | .assign .., _, _, _, _, _ => trivial
  | .call id args, _, _, _, _, h => by
      simp only [expr] at h
      cases hlookup : ctx.names.lookup id.name with
      | none => simp [hlookup, throw_eq_ok] at h
      | some sense =>
          cases sense with
          | var | type => simp [hlookup, throw_eq_ok] at h
          | procedure q =>
              simp only [hlookup, bind_eq_ok] at h
              obtain ⟨ds, _, -, h⟩ := h
              exact absurd h call_ne_location
  | .paren _ inner _, _, _, _, _, h => by
      simp only [expr] at h
      exact isPlace_of_location (l := inner) h
  | .reference _ operand, _, _, _, _, h => by
      simp only [expr, bind_eq_ok] at h
      obtain ⟨x, _, -, h⟩ := h
      cases x <;> cases h
  | .negate _ operand, _, _, _, _, h => by
      simp only [expr, negate, bind_eq_ok, pure_eq_ok] at h
      obtain ⟨_, _, -, _, _, -, h, -⟩ := h
      cases h
  | .cast operand _ te, _, _, _, _, h => by
      simp only [expr, bind_eq_ok] at h
      obtain ⟨x, _, hx, t', _, htype, h⟩ := h
      obtain ⟨u, a, rfl, hsize, -⟩ | ⟨-, -, _, heq⟩ := cast_ok h
      · exact ⟨isPlace_of_location (l := operand) hx, _, _, u, t', _, hx, rfl, htype, hsize⟩
      · cases heq
  | .binary op _ _ _, _, _, _, _, h => by
      simp only [expr, bind_eq_ok] at h
      obtain ⟨_, _, -, _, _, -, h⟩ := h
      exact absurd h binary_ne_location

theorem place_ok {tree : Place} (h : place ctx tree w = .ok m w') : ∃ t a, m = .location t a := by
  cases tree with
  | var id =>
      simp only [place] at h
      cases hlookup : ctx.names.lookup id.name with
      | none => simp [hlookup, throw_eq_ok] at h
      | some sense =>
          cases sense with
          | type | procedure => simp [hlookup, throw_eq_ok] at h
          | var t a =>
              simp only [hlookup, pure_eq_ok] at h
              exact ⟨t, a, h.1.symm⟩
  | element array pos index close =>
      simp only [place, element, bind_eq_ok, pure_eq_ok] at h
      obtain ⟨_, _, -, _, _, -, ⟨t, a⟩, _, -, ⟨_, i⟩, _, -, rfl, -⟩ := h
      exact ⟨_, _, rfl⟩

theorem assign_ok {target source : Datum} (h : assign ctx target source w = .ok m w') :
    ∃ t a, m = .location t a := by
  cases target with
  | void | number => cases h
  | location t a =>
      simp only [assign] at h
      split at h
      · cases h
      · simp only [bind_eq_ok] at h
        obtain ⟨⟨_, n⟩, _, -, h⟩ := h
        split at h
        · cases h
          exact ⟨t, a, rfl⟩
        · cases h

/-- What stands for a place denotes one, unless it is a call without a value. -/
theorem location_of_isPlace : ∀ {l : Expr} {w w' : World} {m : Datum},
    IsPlace ctx w l → expr ctx l w = .ok m w' → m = .void ∨ ∃ t a, m = .location t a
  | .name id, _, _, _, _, h => by
      simp only [expr] at h
      cases hlookup : ctx.names.lookup id.name with
      | none => simp [hlookup, throw_eq_ok] at h
      | some sense =>
          cases sense with
          | type => simp [hlookup, throw_eq_ok] at h
          | var t a =>
              simp only [hlookup, pure_eq_ok] at h
              exact .inr ⟨t, a, h.1.symm⟩
          | procedure q =>
              simp only [hlookup] at h
              cases q with
              | digitToInt | other => cases h
              | writeEln =>
                  simp only [call, writeLine] at h
                  split at h
                  · cases h
                  · cases h
                    exact .inl rfl
  | .element tree, _, _, _, _, h => by
      simp only [expr] at h
      exact .inr (place_ok h)
  | .assign .., _, _, _, _, h => by
      simp only [expr, bind_eq_ok] at h
      obtain ⟨_, _, -, _, _, -, h⟩ := h
      exact .inr (assign_ok h)
  | .paren _ inner _, _, _, _, hplace, h => by
      simp only [expr] at h
      exact location_of_isPlace (l := inner) hplace h
  | .cast operand _ te, _, _, _, ⟨hplace, _, _, u, t, _, hx, hu, htype, hsize⟩, h => by
      simp only [expr, bind_eq_ok] at h
      obtain ⟨x, _, hx', t', _, htype', h⟩ := h
      rw [hx] at hx'
      cases hx'
      rw [htype] at htype'
      cases htype'
      obtain ⟨_, a, -, -, rfl⟩ | ⟨hvoid, hchanges, -⟩ := cast_ok h
      · exact .inr ⟨t, a, rfl⟩
      · obtain rfl | ⟨u', a, rfl⟩ := location_of_isPlace (l := operand) hplace hx
        · exact absurd rfl hvoid
        · cases hu
          exact absurd hsize (hchanges u a rfl)

/-! ## Operands -/

/-- A run of the operands `l` and `r` from the world `w`.  The left one denotes a datum, which
has a number in the world between the two and another one behind the right operand. -/
structure Operands (ctx : Context) (l r : Expr) (w : World) where
  left : Datum
  right : Datum
  between : World
  behind : World
  lt : Ty
  rt : Ty
  early : Nat
  late : Nat
  value : Nat
  runs_left : expr ctx l w = .ok left between
  fetches_early : fetch ctx left between = .ok (lt, early) between
  runs_right : expr ctx r between = .ok right behind
  fetches_late : fetch ctx left behind = .ok (lt, late) behind
  fetches_right : fetch ctx right behind = .ok (rt, value) behind

/-- One of the operands divides by zero, and the world is `w'` then. -/
def OperandDivides (ctx : Context) (l r : Expr) (w w' : World) : Prop :=
  expr ctx l w = .error .divisionByZero w' ∨
    ∃ m w₁, expr ctx l w = .ok m w₁ ∧ expr ctx r w₁ = .error .divisionByZero w'

/-- A run that neither strays nor is stuck divides by zero in its first part, or goes on. -/
theorem Ends.bind_cases {x : Run α} {f : α → Run β} {P : β → World → Prop} {F : World → Prop}
    (h : Ends ((x >>= f) w) P F) (hstray : ∀ w', (x >>= f) w ≠ .error .stray w') :
    (∃ w', x w = .error .divisionByZero w' ∧ F w') ∨
      ∃ y w', x w = .ok y w' ∧ Ends (f y w') P F ∧ ∀ w'', f y w' ≠ .error .stray w'' := by
  cases hx : x w with
  | ok y w' =>
      rw [bind_of_ok hx] at h hstray
      exact .inr ⟨y, w', rfl, h, hstray⟩
  | error e w' =>
      have herror : (x >>= f) w = .error e w' := bind_eq_error.2 (.inl hx)
      rw [herror] at h hstray
      cases e with
      | divisionByZero => exact .inl ⟨w', rfl, h⟩
      | stray => exact absurd rfl (hstray w')
      | stuck => exact h.elim

/-- An operator whose run neither strays nor is stuck has operands, unless one of them divides by
zero. -/
theorem operands_of_ends {P : Datum → World → Prop} {F : World → Prop}
    (h : Ends (expr ctx (.binary op pos l r) w) P F)
    (hstray : ∀ w', expr ctx (.binary op pos l r) w ≠ .error .stray w') :
    (∃ w', OperandDivides ctx l r w w' ∧ F w') ∨ Nonempty (Operands ctx l r w) := by
  simp only [expr] at h hstray
  obtain ⟨w', hl, hfault⟩ | ⟨x, w₁, hl, h₁, hstray₁⟩ := h.bind_cases hstray
  · exact .inl ⟨w', .inl hl, hfault⟩
  obtain ⟨w', hr, hfault⟩ | ⟨y, w₂, hr, h₂, hstray₂⟩ := h₁.bind_cases hstray₁
  · exact .inl ⟨w', .inr ⟨x, w₁, hl, hr⟩, hfault⟩
  unfold binary at h₂ hstray₂
  obtain ⟨w', hx, -⟩ | ⟨⟨lt, late⟩, w₃, hx, h₃, hstray₃⟩ := h₂.bind_cases hstray₂
  · exact absurd hx fetch_ne_divisionByZero
  obtain ⟨rfl, -⟩ := fetch_ok hx
  obtain ⟨w', hy, -⟩ | ⟨⟨rt, value⟩, w₄, hy, -⟩ := h₃.bind_cases hstray₃
  · exact absurd hy fetch_ne_divisionByZero
  obtain ⟨rfl, -⟩ := fetch_ok hy
  obtain ⟨early, hearly⟩ := fetch_elsewhere hx w₁
  exact .inr ⟨⟨x, y, w₁, _, lt, rt, early, late, value, hl, hearly, hr, hx, hy⟩⟩

namespace Operands

/-- There is only one run. -/
instance : Subsingleton (Operands ctx l r w) where
  allEq := by
    rintro ⟨x, y, w₁, w₂, lt, rt, early, late, value, hl, hearly, hr, hlate, hvalue⟩
      ⟨x', y', w₁', w₂', lt', rt', early', late', value', hl', hearly', hr', hlate', hvalue'⟩
    obtain ⟨rfl, rfl⟩ : x' = x ∧ w₁' = w₁ := by simpa [hl] using hl'.symm
    obtain ⟨rfl, rfl⟩ : y' = y ∧ w₂' = w₂ := by simpa [hr] using hr'.symm
    obtain ⟨rfl, rfl⟩ : lt' = lt ∧ early' = early := by simpa [hearly] using hearly'.symm
    obtain rfl : late' = late := by simpa [hlate] using hlate'.symm
    obtain ⟨rfl, rfl⟩ : rt' = rt ∧ value' = value := by simpa [hvalue] using hvalue'.symm
    rfl

theorem not_divides (o : Operands ctx l r w) : ¬OperandDivides ctx l r w w' := by
  rintro (hl | ⟨x, w₁, hl, hr⟩)
  · rw [o.runs_left] at hl
    cases hl
  · rw [o.runs_left] at hl
    cases hl
    rw [o.runs_right] at hr
    cases hr

/-- The right operand leaves the bytes of the left one as they are. -/
def Spared (o : Operands ctx l r w) : Prop :=
  ∀ t a, o.left = .location t a → ∀ i < t.size,
    o.behind.mem (a + BitVec.ofNat 64 i) = o.between.mem (a + BitVec.ofNat 64 i)

theorem late_eq_early_iff (o : Operands ctx l r w) : o.late = o.early ↔ o.Spared := by
  have hlate := o.fetches_late
  obtain ⟨-, hleft | ⟨a, hleft, harray, hclear, hearly⟩⟩ := fetch_ok o.fetches_early
  · rw [hleft, fetch_number] at hlate
    simp only [EStateM.Result.ok.injEq, Prod.mk.injEq, true_and, and_true] at hlate
    simp [Spared, hleft, hlate]
  · rw [hleft, fetch_location harray hclear] at hlate
    simp only [EStateM.Result.ok.injEq, Prod.mk.injEq, true_and, and_true] at hlate
    rw [← hlate, hearly]
    constructor
    · intro heq t b hlocation
      rw [hleft] at hlocation
      cases hlocation
      exact eq_of_load_eq heq
    · intro hspared
      exact load_congr (hspared o.lt a hleft)

/-- The left operand is a place if and only if it is written as one. -/
theorem left_eq_location_iff (o : Operands ctx l r w) :
    (∃ t a, o.left = .location t a) ↔ IsPlace ctx w l := by
  constructor
  · rintro ⟨t, a, hleft⟩
    exact isPlace_of_location (hleft ▸ o.runs_left)
  · intro hplace
    obtain hvoid | hlocation := location_of_isPlace hplace o.runs_left
    · have hfetch := o.fetches_early
      rw [hvoid] at hfetch
      cases hfetch
    · exact hlocation

theorem spared_of_not_isPlace (o : Operands ctx l r w) (h : ¬IsPlace ctx w l) : o.Spared := by
  intro t a hleft
  exact absurd (o.left_eq_location_iff.1 ⟨t, a, hleft⟩) h

theorem run_eq (o : Operands ctx l r w) :
    expr ctx (.binary op pos l r) w = binary ctx op o.left o.right o.behind := by
  simp only [expr]
  rw [bind_of_ok o.runs_left, bind_of_ok o.runs_right]

theorem run_some (o : Operands ctx l r w)
    (h : op.result? (o.lt.wider o.rt).size o.late o.value = some n) :
    expr ctx (.binary op pos l r) w = .ok (.number (o.lt.wider o.rt) n) o.behind := by
  rw [o.run_eq]
  exact binary_of_some o.fetches_late o.fetches_right h

theorem run_none (o : Operands ctx l r w)
    (h : op.result? (o.lt.wider o.rt).size o.late o.value = none) :
    expr ctx (.binary op pos l r) w = .error .divisionByZero o.behind := by
  rw [o.run_eq]
  exact binary_of_none o.fetches_late o.fetches_right h

end Operands

/-! ## Adding a zero -/

/-- The expression `(l + 0)`, where the zero does not change the type `t` of `l`. -/
inductive PlusZero (ctx : Context) (t : Ty) (l : Expr) : Expr → Prop
  | mk (start pos : Position) (zero : Expr) (close : Read Unit) (u : Ty)
      (hzero : ∀ w, expr ctx zero w = .ok (.number u 0) w) (hwider : t.wider u = t) :
      PlusZero ctx t l (.paren start (.binary .add pos l zero) close)

namespace PlusZero

theorem run_eq (h : PlusZero ctx t l l') {w₁ : World} (hl : expr ctx l w = .ok m w₁) :
    ∃ u, t.wider u = t ∧ expr ctx l' w = binary ctx .add m (.number u 0) w₁ := by
  obtain ⟨start, pos, zero, close, u, hzero, hwider⟩ := h
  refine ⟨u, hwider, ?_⟩
  simp only [expr]
  rw [bind_of_ok hl, bind_of_ok (hzero w₁)]

theorem run (h : PlusZero ctx t l l') {w₁ : World} (hl : expr ctx l w = .ok m w₁)
    (hm : fetch ctx m w₁ = .ok (t, n) w₁) (hn : n < 2 ^ (8 * t.size)) :
    expr ctx l' w = .ok (.number t n) w₁ := by
  obtain ⟨u, hwider, hrun⟩ := h.run_eq hl
  have hresult : BinaryOp.add.result? (t.wider u).size n 0 = some n := by
    rw [hwider, BinaryOp.result?, Nat.add_zero, Nat.mod_eq_of_lt hn]
  rw [hrun, binary_of_some hm (fetch_number u 0 w₁) hresult, hwider]

/-- An operand that divides by zero still does so after a zero is added to the left one. -/
theorem divides (h : PlusZero ctx t l l') (hdivides : OperandDivides ctx l r w w')
    {P : Datum → World → Prop} {F : World → Prop}
    (hends : Ends (expr ctx (.binary op pos l' r) w) P F)
    (hstray : ∀ w', expr ctx (.binary op pos l' r) w ≠ .error .stray w') : F w' := by
  rcases hdivides with hl | ⟨x, w₁, hl, hr⟩
  · obtain ⟨start, pos', zero, close, u, hzero, hwider⟩ := h
    have herror : expr ctx (.binary op pos (.paren start (.binary .add pos' l zero) close) r) w =
        .error .divisionByZero w' := by
      simp only [expr]
      exact bind_eq_error.2 (.inl (bind_eq_error.2 (.inl hl)))
    rw [herror] at hends
    exact hends
  · obtain ⟨u, -, hrun⟩ := h.run_eq hl
    simp only [expr] at hends hstray
    obtain ⟨w₂, hl', -⟩ | ⟨y, w₂, hl', hends₁, hstray₁⟩ := hends.bind_cases hstray
    · rw [hrun] at hl'
      exact absurd hl' add_result.2
    · rw [hrun] at hl'
      obtain rfl := add_result.1 y hl'
      rw [bind_eq_error.2 (.inl hr)] at hends₁
      exact hends₁

end PlusZero

def Operands.plusZero (o : Operands ctx l r w) (h : PlusZero ctx o.lt l l')
    (hearly : o.early < 2 ^ (8 * o.lt.size)) : Operands ctx l' r w where
  left := .number o.lt o.early
  right := o.right
  between := o.between
  behind := o.behind
  lt := o.lt
  rt := o.rt
  early := o.early
  late := o.early
  value := o.value
  runs_left := h.run o.runs_left o.fetches_early hearly
  fetches_early := rfl
  runs_right := o.runs_right
  fetches_late := rfl
  fetches_right := o.fetches_right

/-! ## The code of an operator -/

/-- The code from `c` to `d` leaves the datum in `v` and the world `w`, or divides by zero. -/
def Leaves (p : Platform) (ctx : Context) (fr : Frame) (c : Compilation) (s : State)
    (d : Compilation) (v : Value) (w : World) : Option Datum → Prop
  | some y => ∃ s', Lands p ctx fr c.assembly [] s d.assembly s' w ∧ Denotes p fr.sp s' v y
  | none => ∃ s', Runs p c.assembly s d.assembly (.error ⟨.divideError, s'⟩) ∧
      Mirrors ctx s' w

namespace Enacts

variable {still : Bool}

theorem leaves (h : Enacts p ctx fr still c d v (expr ctx (.binary op pos l r)))
    (hs : Follows ctx fr s w) (o : Operands ctx l r w) :
    Leaves p ctx fr c s d v o.behind
      ((op.result? (o.lt.wider o.rt).size o.late o.value).map (.number (o.lt.wider o.rt))) := by
  have hends := h.performs s w hs
  cases hresult : op.result? (o.lt.wider o.rt).size o.late o.value with
  | none =>
      rw [Performs, o.run_none hresult] at hends
      exact hends.2
  | some n =>
      rw [Performs, o.run_some hresult] at hends
      exact hends.2

theorem lands (h : Enacts p ctx fr still c d v (expr ctx l)) (hs : Follows ctx fr s w)
    (o : Operands ctx l r w) :
    ∃ s', Lands p ctx fr c.assembly [] s d.assembly s' o.between ∧
      Denotes p fr.sp s' v o.left := by
  have hends := h.performs s w hs
  rw [Performs, o.runs_left] at hends
  exact hends.2

theorem early_lt (h : Enacts p ctx fr still c d v (expr ctx l)) (hs : Follows ctx fr s w)
    (o : Operands ctx l r w) : o.early < 2 ^ (8 * o.lt.size) := by
  obtain ⟨-, hleft | ⟨a, -, -, -, hearly⟩⟩ := fetch_ok o.fetches_early
  · obtain ⟨s', -, hdenotes⟩ := h.lands hs o
    rw [hleft] at hdenotes
    obtain ⟨htype, -, hholds⟩ := hdenotes
    rw [← htype]
    exact hholds.lt
  · rw [hearly]
    exact load_lt

theorem spared {e : Compilation} {u : Value} (h : Enacts p ctx fr still c d v (expr ctx l))
    (hr : Enacts p ctx fr true d e u (expr ctx r)) (hs : Follows ctx fr s w)
    (o : Operands ctx l r w) : o.Spared := by
  obtain ⟨s', hlands, -⟩ := h.lands hs o
  have hends := hr.performs s' o.between hlands.toFollows
  rw [Performs, o.runs_right] at hends
  intro t a _ i _
  rw [hends.1 rfl]

end Enacts

/-- Unless the run touches the bytes right below the stack pointer, the code of `l op r` operates
on the number that `l` has behind `r` and the number of `r`.  That of `l` is the one from before
if and only if the stores of `r` leave the bytes of `l` as they are.  They do if `l` is no place,
and if there are none.  If `l` is a place, it is the one from before `r`.  The code of
`(l + 0) op r` always operates on the number of `l` from before. -/
theorem left_operand_kept_unless_overwritten
    (h : Compile.item (.binary op pos l r) c = .ok (.value v) d)
    (ht : (Expr.binary op pos l r).Proper) (hc : Ready p ctx fr c) (hs : Follows ctx fr s w)
    (hstray : ∀ w', expr ctx (.binary op pos l r) w ≠ .error .stray w') :
    (∃ w', OperandDivides ctx l r w w' ∧ Leaves p ctx fr c s d v w' none ∧
      ∀ t l' v' d', PlusZero ctx t l l' → l'.Proper →
        Compile.item (.binary op pos l' r) c = .ok (.value v') d' →
        (∀ w'', expr ctx (.binary op pos l' r) w ≠ .error .stray w'') →
        Leaves p ctx fr c s d' v' w' none) ∨
    ∃ o : Operands ctx l r w,
      Leaves p ctx fr c s d v o.behind
        ((op.result? (o.lt.wider o.rt).size o.late o.value).map (.number (o.lt.wider o.rt))) ∧
      (o.late = o.early ↔ o.Spared) ∧
      ((∃ t a, o.left = .location t a) ↔ IsPlace ctx w l) ∧
      (¬IsPlace ctx w l ∨ r.assigns = false → o.Spared) ∧
      ∀ l' v' d', PlusZero ctx o.lt l l' → l'.Proper →
        Compile.item (.binary op pos l' r) c = .ok (.value v') d' →
        Leaves p ctx fr c s d' v' o.behind
          ((op.result? (o.lt.wider o.rt).size o.early o.value).map
            (.number (o.lt.wider o.rt))) := by
  have henacts : Enacts p ctx fr false c d v (expr ctx (.binary op pos l r)) :=
    item_enacts h ht nofun hc
  obtain ⟨w', hdivides, hfault⟩ | ⟨⟨o⟩⟩ := operands_of_ends (henacts.performs s w hs) hstray
  · refine .inl ⟨w', hdivides, hfault.2, fun t l' v' d' hzero hl' h' hstray' => ?_⟩
    have henacts' : Enacts p ctx fr false c d' v' (expr ctx (.binary op pos l' r)) :=
      item_enacts h' ⟨hl', ht.2⟩ nofun hc
    exact (hzero.divides hdivides (henacts'.performs s w hs) hstray').2
  · obtain ⟨u, c₁, c₂, x, c₃, y, hu, hlike, hx, -, -⟩ := Compile.item_binary_ok h
    have hleft : Enacts p ctx fr false c c₁ u (expr ctx l) := item_enacts hu ht.1 nofun hc
    have hc₁ : Ready p ctx fr c₁ := hc.takes (Compile.item_computes hu).takes
    refine .inr ⟨o, henacts.leaves hs o, o.late_eq_early_iff, o.left_eq_location_iff, ?_, ?_⟩
    · rintro (hplace | hflat)
      · exact o.spared_of_not_isPlace hplace
      · exact hleft.spared (.after hlike (item_enacts hx ht.2 (fun _ => hflat) (hc₁.like hlike)))
          hs o
    · intro l' v' d' hzero hl' h'
      have henacts' : Enacts p ctx fr false c d' v' (expr ctx (.binary op pos l' r)) :=
        item_enacts h' ⟨hl', ht.2⟩ nofun hc
      exact henacts'.leaves hs (o.plusZero hzero (hleft.early_lt hs o))

/-- All labels are far below the stack pointer, but for that of `y`, which is right below it. -/
def sumPlatform : Platform where
  place := fun label =>
    if label = "tern$global$x" then 0x2004
    else if label = "tern$global$y" then 0x7ff8 else 0x2000
  leftover := fun _ _ => 0

/-- The variable `x` is 1, and `y` is 100. -/
def sumState : State where
  regs := fun r => if r = .rsp then 0x8000 else 0
  mem := fun a => if a = 0x2004 then 1 else if a = 0x7ff8 then 100 else 0
  output := []

/-- The variable `x`, after a program has run to its end. -/
def sumOf (text : String) : Option Nat :=
  match compileLines text.toList with
  | .error _ => none
  | .ok lines =>
      match exec sumPlatform (entryCode lines) sumState with
      | .error ⟨.exited 0, t⟩ => some (load t.mem 0x2004 4)
      | _ => none

/-- The left operand of the sum is 1 until the right one stores 5 to it.  The code adds 5 and 5;
after a zero is added to the left operand, it adds 1 and 5.  In the second sum the right operand
stores nothing, but its code saves a register where the left operand is, which was 100. -/
theorem left_operand_overwritten :
    (sumOf "var x: Int begin x := 1 x := x + (x := 5) end" = some 10 ∧
      sumOf "var x: Int begin x := 1 x := (x + 0) + (x := 5) end" = some 6) ∧
    sumOf "var x: Int, y: Int
      begin x := 0 x := (x+1) + ((x+1) + ((x+1) + ((x+1) + ((x+1) + (y + x*x))))) end" = some 6 ∧
    sumOf "var x: Int, y: Int
      begin x := 0 x := (x+1) + ((x+1) + ((x+1) + ((x+1) + ((x+1) + ((y+0) + x*x))))) end" =
        some 105 := by
  decide +kernel

def sumVariable : Variable :=
  { name := "x", type := .builtin .int, storage := some (.global "tern$global$x" 4) }

/-- Only the variable is declared. -/
def sumStart : Compilation where
  scopes := Scopes.builtin.mapInnermost (·.adding [sumVariable])

/-- No bytes are barred but those right below the stack pointer. -/
def sumContext : Context where
  names := ("x", .var (.builtin .int) 0x2004) ::
    (entryOf sumPlatform sumState fun _ _ => false).context.names
  newline := 0x2000
  barred := fun a => !decide (Sheltered 0x8000 a)

def sumFrame : Frame := ⟨0x8000, 0⟩

/-- The expression `x`. -/
def sumLeft : Expr := .name ⟨"x", ⟨1, 1⟩⟩

/-- The expression `(x := 5)`. -/
def sumRight : Expr :=
  .paren ⟨1, 5⟩ (.assign (.var ⟨"x", ⟨1, 6⟩⟩) ⟨1, 8⟩ (.integer ⟨1, 11⟩ "5" false)) (.ok ())

def sumWorld : World := ⟨sumState.mem, []⟩

theorem sumStart_ready : Ready sumPlatform sumContext sumFrame sumStart where
  sound := Scopes.builtin_sound.adding (by decide)
  linked := ((linked_builtin (entryOf sumPlatform sumState fun _ _ => false)).declared
    (v := sumVariable) (x := 0x2004) trivial (by rintro _ ⟨⟩; rfl)).congr rfl
  pooled := fun r hr => by cases hr

theorem sum_follows : Follows sumContext sumFrame sumState sumWorld :=
  ⟨⟨fun _ _ => rfl, rfl⟩, fun x hx => by simpa [sumContext, sumFrame] using hx, rfl, rfl⟩

def sumOperands : Operands sumContext sumLeft sumRight sumWorld where
  left := .location (.builtin .int) 0x2004
  right := .location (.builtin .int) 0x2004
  between := sumWorld
  behind := { sumWorld with mem := store sumWorld.mem 0x2004 4 5 }
  lt := .builtin .int
  rt := .builtin .int
  early := 1
  late := 5
  value := 5
  runs_left := rfl
  fetches_early := fetch_location rfl (by decide) _
  runs_right := rfl
  fetches_late := fetch_location rfl (by decide) _
  fetches_right := fetch_location rfl (by decide) _

/-- The expression `(x + 0)`. -/
def sumShielded : Expr :=
  .paren ⟨1, 1⟩ (.binary .add ⟨1, 4⟩ sumLeft (.integer ⟨1, 6⟩ "0" false)) (.ok ())

theorem sumShielded_plusZero : PlusZero sumContext (.builtin .int) sumLeft sumShielded :=
  .mk _ _ _ _ (.builtin .int) (fun _ => rfl) rfl

theorem sumShielded_proper : sumShielded.Proper :=
  ⟨⟨trivial, trivial⟩, .ok ()⟩

def accepts (l : Expr) : Bool :=
  match Compile.item (.binary .add ⟨1, 3⟩ l sumRight) sumStart with
  | .ok (.value _) _ => true
  | _ => false

theorem exists_of_accepts {l : Expr} (h : accepts l = true) :
    ∃ v d, Compile.item (.binary .add ⟨1, 3⟩ l sumRight) sumStart = .ok (.value v) d := by
  unfold accepts at h
  split at h
  · next v d hitem => exact ⟨v, d, hitem⟩
  · cases h

/-- The code of `x + (x := 5)` leaves 10, that of `(x + 0) + (x := 5)` leaves 6. -/
theorem left_operand_kept_unless_overwritten_sum :
    ∃ v v' d d',
      Compile.item (.binary .add ⟨1, 3⟩ sumLeft sumRight) sumStart = .ok (.value v) d ∧
      Compile.item (.binary .add ⟨1, 3⟩ sumShielded sumRight) sumStart = .ok (.value v') d' ∧
      ¬sumOperands.Spared ∧
      Leaves sumPlatform sumContext sumFrame sumStart sumState d v sumOperands.behind
        (some (.number (.builtin .int) 10)) ∧
      Leaves sumPlatform sumContext sumFrame sumStart sumState d' v' sumOperands.behind
        (some (.number (.builtin .int) 6)) := by
  obtain ⟨v, d, hitem⟩ := exists_of_accepts (l := sumLeft) (by decide +kernel)
  obtain ⟨v', d', hitem'⟩ := exists_of_accepts (l := sumShielded) (by decide +kernel)
  have hproper : (Expr.binary .add ⟨1, 3⟩ sumLeft sumRight).Proper :=
    ⟨trivial, ⟨trivial, trivial⟩, .ok ()⟩
  have hstray (w' : World) :
      expr sumContext (.binary .add ⟨1, 3⟩ sumLeft sumRight) sumWorld ≠ .error .stray w' := by
    rw [sumOperands.run_some rfl]
    simp
  obtain ⟨w', hdivides, -⟩ | ⟨o, hleaves, hspared, -, -, hplus⟩ :=
    left_operand_kept_unless_overwritten hitem hproper sumStart_ready sum_follows hstray
  · exact absurd hdivides sumOperands.not_divides
  · obtain rfl := Subsingleton.elim o sumOperands
    refine ⟨v, v', d, d', hitem, hitem', ?_, hleaves, ?_⟩
    · rw [← hspared]
      decide
    · exact hplus sumShielded v' d' sumShielded_plusZero sumShielded_proper hitem'

end Meaning

end Tern
