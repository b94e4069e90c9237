import Tern.Proofs.Compile.Safety
import Tern.Proofs.Machine.Constants
import Tern.Proofs.Meaning.Interpreter

/-!
# Names, constants and types

The scopes of a compilation and the names of a run belong together when both say the same of
every name.  Then an expression that compiles to a constant denotes that constant, and a type
expression denotes the type that it compiles to.
-/

namespace Tern

/-! ## Sizes -/

/-- Every array in the type has elements and is not too large. -/
def Ty.Sized : Ty → Prop
  | .builtin _ => True
  | .pointer base => base.Sized
  | .array base n => base.Sized ∧ 0 < n ∧ n * base.size ≤ sizeLimit

namespace Ty.Sized

variable {t u : Ty}

theorem size_pos (h : t.Sized) : 0 < t.size := by
  induction t with
  | builtin b => cases b <;> decide
  | pointer base => exact (by decide : 0 < 8)
  | array base n ih => exact Nat.mul_pos h.2.1 (ih h.1)

theorem size_le (h : t.Sized) : t.size ≤ sizeLimit := by
  cases t with
  | builtin b => cases b <;> decide
  | pointer base => exact (by decide : 8 ≤ sizeLimit)
  | array base n => exact h.2.2

theorem size_lt (h : t.Sized) : t.size < 2 ^ 31 := Nat.lt_of_le_of_lt h.size_le (by decide)

theorem element (h : t.Sized) (hu : t.element? = some u) : u.Sized := by
  cases t with
  | builtin b => cases hu
  | pointer base =>
      cases hu
      exact h
  | array base n =>
      cases hu
      exact h.1

theorem wider (h : t.Sized) (hu : u.Sized) : (t.wider u).Sized := by
  unfold Ty.wider
  split
  · exact hu
  · exact h

end Ty.Sized

namespace Meaning

open Machine

/-! ## Names -/

/-- Where a variable with storage is, below the frame pointer `fp` or at its label. -/
def storageAddress (place : String → Addr) (fp : Addr) : Storage → Addr
  | .global label _ => place label
  | .frame offset _ => fp + BitVec.ofInt 64 (-offset)

/-- What the run takes an entity for.  A variable without storage may be anywhere. -/
def Represents (place : String → Addr) (fp : Addr) : Entity → Sense → Prop
  | .var v, .var t a =>
      t = v.type ∧ t.Sized ∧
        ∀ storage, v.storage = some storage → a = storageAddress place fp storage
  | .type _ t, .type u => u = t ∧ t.Sized
  | .procedure q, .procedure r => r = q.routine
  | _, _ => False

/-- Every name of the scopes stands for the same thing in the run. -/
def Linked (place : String → Addr) (fp : Addr) (ctx : Context) (s : Scopes) : Prop :=
  ∀ name entity, s.lookup name = some entity →
    ∃ sense, ctx.names.lookup name = some sense ∧ Represents place fp entity sense

namespace Linked

variable {place : String → Addr} {fp : Addr} {ctx : Context} {s : Scopes} {name : String}

theorem var (h : Linked place fp ctx s) {v : Variable} (hv : s.lookup name = some (.var v)) :
    v.type.Sized ∧ ∃ a, ctx.names.lookup name = some (.var v.type a) ∧
      ∀ storage, v.storage = some storage → a = storageAddress place fp storage := by
  obtain ⟨sense, hsense, hrepresents⟩ := h name _ hv
  cases sense with
  | var t a =>
      obtain ⟨rfl, hsized, haddress⟩ := hrepresents
      exact ⟨hsized, a, hsense, haddress⟩
  | type | procedure => exact hrepresents.elim

theorem type (h : Linked place fp ctx s) {n : String} {t : Ty}
    (ht : s.lookup name = some (.type n t)) :
    t.Sized ∧ ctx.names.lookup name = some (.type t) := by
  obtain ⟨sense, hsense, hrepresents⟩ := h name _ ht
  cases sense with
  | type u =>
      obtain ⟨rfl, hsized⟩ := hrepresents
      exact ⟨hsized, hsense⟩
  | var | procedure => exact hrepresents.elim

theorem procedure (h : Linked place fp ctx s) {q : Procedure}
    (hq : s.lookup name = some (.procedure q)) :
    ctx.names.lookup name = some (.procedure q.routine) := by
  obtain ⟨sense, hsense, hrepresents⟩ := h name _ hq
  cases sense with
  | procedure r =>
      obtain rfl := hrepresents
      exact hsense
  | var | type => exact hrepresents.elim

end Linked

/-! ## Constants -/

variable {place : String → Addr} {fp : Addr} {ctx : Context}

/-- The constant `k` of type `t` is what the run `x` yields, whatever the state of the world. -/
def Constant (x : Run Datum) (t : Ty) (k : Int) : Prop :=
  t.Sized ∧ ∃ n : Nat, k = n ∧ n < 2 ^ (8 * t.size) ∧ ∀ w, x w = .ok (.number t n) w

/-- The run `x` yields the type `t`, whatever the state of the world. -/
def Names (x : Run Ty) (t : Ty) : Prop := t.Sized ∧ ∀ w, x w = .ok t w

theorem fetch_number (t : Ty) (n : Nat) (w : World) :
    fetch ctx (.number t n) w = .ok (t, n) w := rfl

theorem Constant.negate {x : Run Datum} {t : Ty} {k : Int} (h : Constant x t k) :
    Constant (x >>= negate ctx) t (Const.reduce t (-k)) := by
  obtain ⟨hsized, n, rfl, hlt, hx⟩ := h
  refine ⟨hsized, _, Const.reduce_neg (Nat.le_of_lt hlt), Nat.mod_lt _ (two_pow_bytes_pos _),
    fun w => ?_⟩
  rw [bind_of_ok (hx w), Meaning.negate, bind_of_ok (fetch_number t n w)]
  rfl

theorem Constant.cast {x : Run Datum} {y : Run Ty} {s t : Ty} {k : Int} (h : Constant x s k)
    (hy : Names y t) (harray : t.isArray = false) :
    Constant (do let d ← x; let t ← y; cast ctx d t) t (Const.reduce t k) := by
  obtain ⟨-, n, rfl, hlt, hx⟩ := h
  refine ⟨hy.1, _, Const.reduce_natCast t n, Nat.mod_lt _ (two_pow_bytes_pos _), fun w => ?_⟩
  simp only [bind_of_ok (hx w), bind_of_ok (hy.2 w), Meaning.cast, harray, Bool.false_eq_true,
    if_false, convert, bind_of_ok (fetch_number s n w)]
  rfl

theorem Constant.binary {x y : Run Datum} {op : BinaryOp} {lt rt t : Ty} {l r k : Int}
    (hx : Constant x lt l) (hy : Constant y rt r) (h : Const.fold op lt l rt r = .ok (t, k)) :
    Constant (do let l ← x; let r ← y; binary ctx op l r) t k := by
  obtain ⟨hlsized, m, rfl, hm, hx⟩ := hx
  obtain ⟨hrsized, n, rfl, hn, hy⟩ := hy
  rw [Const.fold_eq op hm hn] at h
  cases hresult : op.result? (lt.wider rt).size m n with
  | none =>
      rw [hresult] at h
      cases h
  | some z =>
      rw [hresult] at h
      cases h
      refine ⟨hlsized.wider hrsized, z, rfl, ?_, fun w => ?_⟩
      · exact BinaryOp.result?_lt (Const.lt_wider_left rt hm) hresult
      · simp only [bind_of_ok (hx w), bind_of_ok (hy w), Meaning.binary,
          bind_of_ok (fetch_number lt m w), bind_of_ok (fetch_number rt n w), hresult]
        rfl

theorem constant_literal {b : Builtin} {n : Nat} {x : Run Datum}
    (hlt : n < 2 ^ (8 * (Ty.builtin b).size)) (hx : ∀ w, x w = .ok (.number (.builtin b) n) w) :
    Constant x (.builtin b) n := ⟨trivial, n, rfl, hlt, hx⟩

theorem constant_integer {c d : Compilation} {pos : Position} {digits : String} {isLong : Bool}
    {t : Ty} {k : Int} (hs : c.scopes.Sound)
    (h : Compile.integer pos digits isLong c = .ok (.const t k) d) :
    Constant (expr ctx (.integer pos digits isLong)) t k := by
  obtain ⟨u, hu, hfits, hv, -⟩ := Compile.integer_ok h
  rw [hs.predefinedType] at hu
  cases hu
  cases hv
  refine constant_literal ?_ fun w => by simp only [expr]; rfl
  rw [Const.reduce_natCast, Int.natCast_inj] at hfits
  rw [← hfits]
  exact Nat.mod_lt _ (two_pow_bytes_pos _)

theorem constant_char {pos : Position} {value : Char} (h : value.toNat ≤ 0xff) :
    Constant (expr ctx (.char pos value)) (.builtin .char) value.toNat := by
  refine constant_literal ?_ fun w => by simp only [expr]; rfl
  exact Nat.lt_of_le_of_lt h (by decide)

-- Both statements are proved together along the tree: the count of an array type is a constant,
-- and a constant may be cast to a type.  All other expressions compile to values that are not
-- constant.
mutual

theorem item_constant {t : Ty} {k : Int} : ∀ {tree : Expr} {c d : Compilation},
    Compile.item tree c = .ok (.value (.const t k)) d → tree.Proper → c.scopes.Sound →
    Linked place fp ctx c.scopes → Constant (expr ctx tree) t k
  | .missing _, _, _, h, _, _, _ => (Compile.item_missing_ok h).elim
  | .integer .., _, _, h, _, hs, _ => by
      obtain ⟨c₁, v, hlike, hv, heq⟩ := Compile.item_integer_ok h
      cases heq
      exact constant_integer (hlike.scopes ▸ hs) hv
  | .char .., _, _, h, ht, hs, _ => by
      obtain ⟨u, hu, heq, -⟩ := Compile.item_char_ok h
      rw [hs.predefinedType] at hu
      cases hu
      cases heq
      exact constant_char ht
  | .name _, _, _, h, _, _, _ => by cases Compile.item_const_foldable h
  | .call .., _, _, h, _, _, _ => by cases Compile.item_const_foldable h
  | .element _, _, _, h, _, _, _ => by cases Compile.item_const_foldable h
  | .assign .., _, _, h, _, _, _ => by cases Compile.item_const_foldable h
  | .paren .., _, _, h, ht, hs, hlinked => by
      obtain ⟨c₁, v, c₂, hlike, hv, -, heq⟩ := Compile.item_paren_ok h
      cases heq
      rw [← hlike.scopes] at hs hlinked
      have hinner := item_constant hv ht.1 hs hlinked
      simpa only [expr] using hinner
  | .reference .., _, _, h, _, _, _ => by cases Compile.item_const_foldable h
  | .negate .., _, _, h, ht, hs, hlinked => by
      obtain ⟨c₁, j, c₂, v, hlike, hj, hv, heq⟩ := Compile.item_negate_ok h
      cases heq
      rw [← hlike.scopes] at hs hlinked
      obtain ⟨u, rfl, -, ⟨s, n, rfl, hconst, -⟩ | ⟨-, b, hb, -⟩⟩ := Compile.negate_ok hv
      · cases hconst
        have hinner := item_constant hj ht hs hlinked
        simpa only [expr] using hinner.negate
      · obtain ⟨_, _, _, _, _, _, _, _, _, heq, _⟩ := Emit.negate_ok hb
        cases heq
  | .cast .., c, _, h, ht, hs, hlinked => by
      obtain ⟨u, c₁, c₂, s, c₃, v, hu, hlike, hs', hv, heq⟩ := Compile.item_cast_ok h
      cases heq
      obtain ⟨harray, -, ⟨s', n, rfl, hconst, -⟩ | ⟨hconst, b, hb, -⟩⟩ := Compile.cast_ok hv
      · cases hconst
        have hscopes : c₂.scopes = c.scopes :=
          hlike.scopes.trans (Compile.item_computes hu).takes.scopes
        have hinner := item_constant hu ht.1 hs hlinked
        have htype := type_names hs' ht.2 (hscopes ▸ hs) (hscopes ▸ hlinked)
        simpa only [expr] using hinner.cast htype harray
      · cases Compile.convert_isConst hconst hb
  | .binary .., c, _, h, ht, hs, hlinked => by
      obtain ⟨l, c₁, c₂, r, c₃, v, hl, hlike, hr, hv, heq⟩ := Compile.item_binary_ok h
      cases heq
      obtain ⟨-, ⟨lt, m, rt, n, _, _, rfl, rfl, hfold, hconst, -⟩ | ⟨-, b, hb, -⟩⟩ :=
        Compile.binary_ok hv
      · cases hconst
        have hscopes : c₂.scopes = c.scopes :=
          hlike.scopes.trans (Compile.item_computes hl).takes.scopes
        have hleft := item_constant hl ht.1 hs hlinked
        have hright := item_constant hr ht.2 (hscopes ▸ hs) (hscopes ▸ hlinked)
        simpa only [expr] using hleft.binary hright hfold
      · obtain ⟨_, _, heq⟩ := Emit.operate_eq_reg hb
        cases heq

theorem type_names {t : Ty} : ∀ {tree : TypeExpr} {c d : Compilation},
    Compile.type tree c = .ok t d → tree.Proper → c.scopes.Sound →
    Linked place fp ctx c.scopes → Names (type ctx tree) t
  | .missing _, _, _, h, _, _, _ => (Compile.type_missing_ok h).elim
  | .named id, _, _, h, _, _, hlinked => by
      obtain ⟨⟨name, hname⟩, -⟩ := Compile.type_named_ok h
      obtain ⟨hsized, hlookup⟩ := hlinked.type hname
      refine ⟨hsized, fun w => ?_⟩
      simp only [type, hlookup]
      rfl
  | .pointer _, _, _, h, ht, hs, hlinked => by
      obtain ⟨s, c₁, hbase, -, rfl⟩ := Compile.type_pointer_ok h
      obtain ⟨hsized, hrun⟩ := type_names hbase ht hs hlinked
      refine ⟨hsized, fun w => ?_⟩
      simp only [type, bind_of_ok (hrun w)]
      rfl
  | .array .., c, _, h, ht, hs, hlinked => by
      obtain ⟨s, c₁, c₂, u, k, c₃, hbase, hlike, hk, hzero, -, hsize, -, rfl⟩ :=
        Compile.type_array_ok h
      have hscopes : c₂.scopes = c.scopes :=
        hlike.scopes.trans (Compile.type_like hbase).scopes
      obtain ⟨hsized, hrun⟩ := type_names hbase ht.1 hs hlinked
      obtain ⟨-, n, rfl, -, hcount⟩ :=
        item_constant hk ht.2.1 (hscopes ▸ hs) (hscopes ▸ hlinked)
      refine ⟨⟨hsized, ?_, hsize⟩, fun w => ?_⟩
      · rw [Int.toNat_natCast]
        omega
      · simp only [type, bind_of_ok (hrun w), bind_of_ok (hcount w),
          bind_of_ok (fetch_number u n w)]
        rfl
  | .stopped .., _, _, h, _, _, _ => (Compile.type_stopped_ok h).elim

end

end Meaning

end Tern
