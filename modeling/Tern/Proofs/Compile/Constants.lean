import Tern.Proofs.Compile.TypeSpelling
import Tern.Proofs.Compile.Watching
import Tern.Proofs.Scope.Scoping

/-!
# Constants

An expression that turns out to be constant leaves no trace in the assembly or the scopes.  Every
constant that passes through a compilation is a number that its type holds, whatever the text and
however the compilation ends.
-/

namespace Tern

/-- An expression that turns out to be constant has written nothing, has taken no register, and
has left the frames and the scopes with all their variables as they were. -/
theorem constants_cost_nothing (s s' : Session) (minPrec : Nat) (t : Ty) (n : Int)
    (h : Session.expr minPrec s = .ok (.const t n) s') :
    s'.compilation.assembly.lines = s.compilation.assembly.lines ∧
      s'.compilation.assembly.busy = s.compilation.assembly.busy ∧
      s'.compilation.assembly.frames = s.compilation.assembly.frames ∧
      s'.compilation.scopes = s.compilation.scopes := by
  have hcomputes := Compile.item_computes (Compile.value_ok (Session.phrase_ok h))
  have hassembly : s'.compilation.assembly = s.compilation.assembly := hcomputes.const t n rfl
  have hscopes : s'.compilation.scopes = s.compilation.scopes := hcomputes.takes.scopes
  exact ⟨by rw [hassembly], by rw [hassembly], by rw [hassembly], hscopes⟩

/-- A session in front of `-5 as Char[2 * 3]*`, with a register in use, a frame open and a
variable in it. -/
def constantSession : Session where
  cursor := ⟨⟨.symbol .minus, .start⟩, (TokenStream.ofText "-5 as Char[2 * 3]*".toList).next.2⟩
  compilation :=
    { scopes :=
        { Scopes.builtin with
          inner := [[.var
            { name := "x", type := .builtin .long, storage := some (.frame 8 8) }]] }
      assembly := { lines := #[.textStart], busy := [.r8], frames := [8] } }

theorem constants_cost_nothing_cast :
    ∃ s', Session.expr 0 constantSession =
        .ok (.const (.pointer (.array (.builtin .char) 6)) 4294967291) s' ∧
      s'.compilation.assembly.lines = #[.textStart] ∧
      s'.compilation.assembly.busy = [.r8] ∧
      s'.compilation.assembly.frames = [8] ∧
      s'.compilation.scopes = constantSession.compilation.scopes := by
  have hconstant : (match Session.expr 0 constantSession with
      | .ok v _ => decide (v = .const (.pointer (.array (.builtin .char) 6)) 4294967291)
      | .error .. => false) = true := by decide +kernel
  cases hrun : Session.expr 0 constantSession with
  | error f s' =>
      rw [hrun] at hconstant
      cases hconstant
  | ok v s' =>
      rw [hrun] at hconstant
      obtain rfl := of_decide_eq_true hconstant
      exact ⟨s', rfl, constants_cost_nothing constantSession s' 0 _ _ hrun⟩

/-! ## Normal values -/

theorem Ty.isArray_eq_false {t : Ty} :
    t.isArray = false ↔ (∃ b, t = .builtin b) ∨ ∃ base, t = .pointer base := by
  cases t <;> simp [Ty.isArray]

namespace Value

/-- A constant has a builtin type or a pointer type, and it is a number that the type holds. -/
def Normal : Value → Prop
  | const t n =>
      ((∃ b, t = .builtin b) ∨ ∃ base, t = .pointer base) ∧ 0 ≤ n ∧ n < 2 ^ (8 * t.size)
  | reg .. | mem .. => True

theorem normal_const {t : Ty} {n : Int} :
    (const t n).Normal ↔ t.isArray = false ∧ 0 ≤ n ∧ n < 2 ^ (8 * t.size) := by
  rw [Normal, Ty.isArray_eq_false]

theorem normal_reduce {t : Ty} (h : t.isArray = false) (n : Int) :
    (const t (Const.reduce t n)).Normal :=
  normal_const.2 ⟨h, Const.reduce_nonneg t n, Const.reduce_lt t n⟩

theorem Normal.withType {v : Value} {t : Ty} (h : v.Normal) (ht : t.isArray = false)
    (hsize : v.type.size ≤ t.size) : (v.withType t).Normal := by
  cases v with
  | const s n =>
      obtain ⟨-, hnonneg, hlt⟩ := h
      have hsize : s.size ≤ t.size := hsize
      have hpow : (2 : Int) ^ (8 * s.size) ≤ 2 ^ (8 * t.size) :=
        pow_le_pow_right₀ (by decide) (by omega)
      exact normal_const.2 ⟨ht, hnonneg, hlt.trans_le hpow⟩
  | reg | mem => trivial

/-- For a normal constant, a change of type alone is zero extension. -/
theorem Normal.setWidth {s : Ty} {n : Int} (h : (const s n).Normal) (t : Ty) :
    (BitVec.ofInt (8 * s.size) n).setWidth (8 * t.size) = BitVec.ofInt (8 * t.size) n := by
  obtain ⟨-, hnonneg, hlt⟩ := h
  obtain ⟨k, rfl⟩ := Int.eq_ofNat_of_zero_le hnonneg
  have hk : k < 2 ^ (8 * s.size) := by exact_mod_cast hlt
  apply BitVec.eq_of_toNat_eq
  rw [BitVec.toNat_setWidth, BitVec.ofInt_natCast, BitVec.ofInt_natCast, BitVec.toNat_ofNat,
    BitVec.toNat_ofNat, Nat.mod_eq_of_lt hk]

end Value

def Item.Normal : Item → Prop
  | value v => v.Normal
  | void => True

def Handover.Normal (h : Handover) : Prop := ∀ v ∈ h.values, v.Normal

theorem Const.fold_normal {op : BinaryOp} {lt rt t : Ty} {l r n : Int}
    (hl : (Value.const lt l).Normal) (hr : (Value.const rt r).Normal)
    (h : fold op lt l rt r = .ok (t, n)) : (Value.const t n).Normal := by
  have hwider : (lt.wider rt).isArray = false := by
    rw [Ty.wider]
    split
    · exact (Value.normal_const.1 hr).1
    · exact (Value.normal_const.1 hl).1
  simp only [fold] at h
  split at h
  · cases h
    exact Value.normal_reduce hwider _
  · cases h

/-! ## The builtin types in scope -/

/-- The global scope still knows the builtin types. -/
def Scopes.KnowsBuiltins (s : Scopes) : Prop :=
  ∀ b : Builtin, s.globals.find? b.name = some (.type b.name (.builtin b))

namespace Scopes.KnowsBuiltins

variable {s : Scopes}

theorem predefinedType (h : s.KnowsBuiltins) (b : Builtin) :
    s.predefinedType b.name = .ok (.builtin b) := by
  rw [Scopes.predefinedType, h b]

theorem mapInnermost {f : Scope → Scope} (h : s.KnowsBuiltins)
    (hf : ∀ name n t, s.innermost.find? name = some (.type n t) →
      (f s.innermost).find? name = some (.type n t)) : (s.mapInnermost f).KnowsBuiltins := by
  obtain ⟨inner, globals⟩ := s
  cases inner with
  | nil => exact fun b => hf _ _ _ (h b)
  | cons scope outer => exact h

theorem declare {e : Entity} {s' : Scopes} (h : s.KnowsBuiltins) (hs : s.declare? e = some s') :
    s'.KnowsBuiltins := by
  obtain ⟨hnew, rfl⟩ := Scopes.declare?_eq_some hs
  refine h.mapInnermost fun name n t hfind => ?_
  have hne : e.name ≠ name := by
    rintro rfl
    rw [hnew] at hfind
    cases hfind
  rw [Scope.find?_cons, if_neg hne, hfind]

theorem pop {s' : Scopes} (h : s.KnowsBuiltins) (hs : s.pop? = some s') : s'.KnowsBuiltins := by
  obtain ⟨inner, globals⟩ := s
  cases inner with
  | nil => cases hs
  | cons scope outer =>
      cases hs
      exact h

theorem place {name : String} {storage : Storage} (h : s.KnowsBuiltins) :
    (s.mapInnermost fun scope => scope.place name storage).KnowsBuiltins := by
  refine h.mapInnermost fun name' n t hfind => ?_
  generalize s.innermost = scope at hfind
  induction scope with
  | nil => cases hfind
  | cons e scope ih =>
      rw [Scope.find?_cons] at hfind
      rw [Scope.place, List.map_cons, Scope.find?_cons]
      by_cases hname : e.name = name'
      · rw [if_pos hname] at hfind
        cases hfind
        rw [if_pos hname]
      · rw [if_neg hname] at hfind
        rw [if_neg]
        · exact ih hfind
        · cases e with
          | var v =>
              simp only [Entity.name] at hname ⊢
              split <;> exact hname
          | type | procedure => exact hname

end Scopes.KnowsBuiltins

namespace Compile

/-- However the operation ends, the builtin types are still known.  If it succeeds, its result
satisfies `Q`. -/
def Keeps {α : Type} (x : Compile α) (Q : α → Prop) : Prop :=
  ∀ c : Compilation, c.scopes.KnowsBuiltins →
    (∀ v d, x c = .ok v d → d.scopes.KnowsBuiltins ∧ Q v) ∧
      ∀ f d, x c = .error f d → d.scopes.KnowsBuiltins

namespace Keeps

variable {α β : Type} {Q : α → Prop} {R : β → Prop}

theorem pure {v : α} (h : Q v) : Keeps (Pure.pure v) Q := by
  refine fun c hc => ⟨fun v' d hok => ?_, fun f d herror => (pure_eq_error.1 herror).elim⟩
  obtain ⟨rfl, rfl⟩ := pure_eq_ok.1 hok
  exact ⟨hc, h⟩

theorem throw (f : Failure) : Keeps (MonadExcept.throw f) Q := by
  refine fun c hc => ⟨fun v d hok => (throw_eq_ok.1 hok).elim, fun f' d herror => ?_⟩
  obtain ⟨-, rfl⟩ := throw_eq_error.1 herror
  exact hc

theorem bind {x : Compile α} {f : α → Compile β} (hx : Keeps x Q)
    (hf : ∀ v, Q v → Keeps (f v) R) : Keeps (x >>= f) R := by
  refine fun c hc => ⟨fun v d hok => ?_, fun e d herror => ?_⟩
  · obtain ⟨u, c₁, hu, hv⟩ := bind_eq_ok.1 hok
    obtain ⟨hc₁, hQ⟩ := (hx c hc).1 u c₁ hu
    exact (hf u hQ c₁ hc₁).1 v d hv
  · obtain herror | ⟨u, c₁, hu, herror⟩ := bind_eq_error.1 herror
    · exact (hx c hc).2 e d herror
    · obtain ⟨hc₁, hQ⟩ := (hx c hc).1 u c₁ hu
      exact (hf u hQ c₁ hc₁).2 e d herror

theorem get : Keeps get fun c => c.scopes.KnowsBuiltins := by
  refine fun c hc => ⟨fun v d hok => ?_, fun f d herror => (get_eq_error.1 herror).elim⟩
  obtain ⟨rfl, rfl⟩ := get_eq_ok.1 hok
  exact ⟨hc, hc⟩

theorem modify {g : Compilation → Compilation}
    (h : ∀ c, c.scopes.KnowsBuiltins → (g c).scopes.KnowsBuiltins) :
    Keeps (modify g) fun _ => True := by
  refine fun c hc => ⟨fun v d hok => ?_, fun f d herror => (modify_eq_error.1 herror).elim⟩
  obtain rfl := modify_eq_ok.1 hok
  exact ⟨h c hc, trivial⟩

theorem emit {x : Emit α} (h : ∀ a v b, x a = .ok v b → Q v) : Keeps (emit x) Q := by
  refine fun c hc => ⟨fun v d hok => ?_, fun f d herror => ?_⟩
  · obtain ⟨b, hb, rfl⟩ := emit_eq_ok.1 hok
    exact ⟨hc, h _ v b hb⟩
  · obtain ⟨e, b, -, -, rfl⟩ := emit_eq_error.1 herror
    exact hc

theorem emitted (x : Emit α) : Keeps (Compile.emit x) fun _ => True := emit fun _ _ _ _ => trivial

end Keeps

variable {α : Type} {Q : α → Prop} {pos : Position}

theorem fail_keeps (p : Problem) (pos : Position) : Keeps (fail p pos) Q := .throw _

theorem require_keeps (cond : Bool) (p : Problem) (pos : Position) :
    Keeps (require cond p pos) fun _ => cond = true := by
  cases cond with
  | true => exact .pure rfl
  | false => exact fail_keeps p pos

theorem take_keeps (n : Nat) : Keeps (take n) fun _ => True := .modify fun _ hc => hc

theorem stop_keeps (why : CompileError) : Keeps (stop why) Q :=
  .bind (Q := fun _ => True) (.modify fun _ hc => hc) fun _ _ => .throw _

theorem pass_keeps (n : Nat) (r : Read Unit) : Keeps (pass n r) fun _ => True := by
  cases r with
  | ok v => exact take_keeps n
  | error why => exact stop_keeps why

theorem lookup_keeps (name : String) : Keeps (lookup name) fun _ => True :=
  Keeps.get.bind fun _ _ => .pure trivial

theorem variableOf_keeps (id : Ident) : Keeps (variableOf id) fun _ => True := by
  refine (lookup_keeps id.name).bind fun x _ => ?_
  cases x with
  | none => exact fail_keeps _ _
  | some e =>
      cases e with
      | var v => exact .pure trivial
      | type | procedure => exact fail_keeps _ _

theorem typeOf_keeps (id : Ident) : Keeps (typeOf id) fun _ => True := by
  refine (lookup_keeps id.name).bind fun x _ => ?_
  cases x with
  | none => exact fail_keeps _ _
  | some e =>
      cases e with
      | type n t => exact .pure trivial
      | var | procedure => exact fail_keeps _ _

theorem procedureOf_keeps (id : Ident) : Keeps (procedureOf id) fun _ => True := by
  refine (lookup_keeps id.name).bind fun x _ => ?_
  cases x with
  | none => exact fail_keeps _ _
  | some e =>
      cases e with
      | procedure p => exact .pure trivial
      | var | type => exact fail_keeps _ _

theorem variableNamed_keeps (id : Ident) : Keeps (variableNamed id) Value.Normal := by
  refine (variableOf_keeps id).bind fun v _ => (require_keeps _ _ _).bind fun _ _ => .emit ?_
  intro a u b hu
  obtain ⟨-, ⟨_, _, -, rfl⟩ | ⟨_, _, -, rfl⟩⟩ := Emit.variableValue_ok hu <;> trivial

theorem predefinedType_keeps (b : Builtin) : Keeps (predefinedType b) (· = .builtin b) := by
  refine Keeps.get.bind fun c hc => ?_
  rw [hc.predefinedType b]
  exact .pure rfl

theorem integer_keeps (pos : Position) (digits : String) (isLong : Bool) :
    Keeps (integer pos digits isLong) Value.Normal := by
  refine (predefinedType_keeps _).bind fun t ht => (require_keeps _ _ _).bind fun _ hfits => ?_
  refine .pure ?_
  have hfits : Const.reduce t (Const.ofDigits digits.toList) = Const.ofDigits digits.toList :=
    eq_of_beq hfits
  rw [← hfits]
  exact Value.normal_reduce (by rw [ht]; rfl) _

theorem reference_keeps (pos : Position) (i : Item) : Keeps (reference pos i) Value.Normal := by
  refine (require_keeps _ _ _).bind fun _ _ => .emit fun a v b hv => ?_
  obtain ⟨_, _, _, _, -, -, rfl, -⟩ := Emit.reference_ok hv
  trivial

theorem asValue_keeps {i : Item} (hi : i.Normal) (pos : Position) :
    Keeps (asValue pos i) Value.Normal := by
  cases i with
  | value v => exact .pure hi
  | void => exact fail_keeps _ _

theorem negate_keeps {i : Item} (hi : i.Normal) (pos : Position) :
    Keeps (negate pos i) Value.Normal := by
  refine (asValue_keeps hi pos).bind fun v hv => (require_keeps _ _ _).bind fun _ _ => ?_
  cases v with
  | const t n => exact .pure (Value.normal_reduce (Value.normal_const.1 hv).1 _)
  | reg | mem =>
      refine .emit fun a u b hu => ?_
      obtain ⟨_, _, _, _, -, -, -, -, -, rfl, -⟩ := Emit.negate_ok hu
      trivial

theorem cast_keeps (pos : Position) (v : Value) (t : Ty) : Keeps (cast pos v t) Value.Normal := by
  refine (require_keeps _ _ _).bind fun _ hscalar => ?_
  have hconvert : v.isConst = false → Keeps (emit (Emit.convert v t)) Value.Normal :=
    fun hv => .emit fun a u b hu => by
      have hu := convert_isConst hv hu
      cases u with
      | const => cases hu
      | reg | mem => trivial
  cases v with
  | const s n =>
      simp only [Bool.and_eq_true, Bool.not_eq_true'] at hscalar
      exact .pure (Value.normal_reduce hscalar.1 n)
  | reg | mem => exact hconvert rfl

theorem checkArguments_keeps (id : Ident) (n : Nat) (wants : List Ty) (gots : List Value) :
    Keeps (checkArguments id n wants gots) fun _ => True := by
  induction wants generalizing n gots with
  | nil => exact .pure trivial
  | cons want wants ih =>
      cases gots with
      | nil => exact .pure trivial
      | cons got gots => exact (require_keeps _ _ _).bind fun _ _ => ih _ _

theorem arrayCount_keeps (pos : Position) (v : Value) :
    Keeps (arrayCount pos v) fun _ => True := by
  cases v with
  | const t n => exact (require_keeps _ _ _).bind fun _ _ => .pure trivial
  | reg | mem => exact fail_keeps _ _

theorem declName_keeps (d : Decl) : Keeps (declName d) fun _ => True := by
  unfold declName
  cases hexported : d.exported with
  | none =>
      simp only
      split
      · exact stop_keeps _
      · exact .pure trivial
  | some pos =>
      refine Keeps.get.bind fun _ _ => (require_keeps _ _ _).bind fun _ _ => ?_
      split
      · exact stop_keeps _
      · exact (take_keeps 1).bind fun _ _ => (require_keeps _ _ _).bind fun _ _ => .pure trivial

/-! ## Laying out variables -/

theorem declared_keeps (name : String) : Keeps (declared name) fun _ => True := by
  refine Keeps.get.bind fun c _ => ?_
  split
  · exact .pure trivial
  · exact .throw _

theorem placeVariable_keeps (v : Variable) (storage : Storage) :
    Keeps (placeVariable v storage) fun _ => True := by
  unfold placeVariable
  split
  · exact .throw _
  · exact .modify fun c hc => hc.place

theorem exportLabels_keeps (names : List String) : Keeps (exportLabels names) fun _ => True := by
  induction names with
  | nil => exact .pure trivial
  | cons name names ih =>
      refine (declared_keeps name).bind fun v _ => ?_
      split
      · exact (Keeps.emitted _).bind fun _ _ => ih
      · exact ih

theorem defineGlobals_keeps (names : List String) :
    Keeps (defineGlobals names) fun _ => True := by
  induction names with
  | nil => exact .pure trivial
  | cons name names ih =>
      refine (declared_keeps name).bind fun v _ => (Keeps.emitted _).bind fun unit _ => ?_
      exact (placeVariable_keeps v _).bind fun _ _ => (Keeps.emitted _).bind fun _ _ => ih

theorem layOutGlobals_keeps (names : List String) : Keeps (layOutGlobals names) fun _ => True :=
  (exportLabels_keeps names).bind fun _ _ => defineGlobals_keeps names

theorem placeLocals_keeps (total : Nat) (names : List String) :
    Keeps (placeLocals total names) fun _ => True := by
  induction names generalizing total with
  | nil => exact .pure trivial
  | cons name names ih =>
      refine (declared_keeps name).bind fun v _ => ?_
      exact (placeVariable_keeps v _).bind fun _ _ => ih _

theorem layOutLocals_keeps (names : List String) : Keeps (layOutLocals names) fun _ => True :=
  (Keeps.emitted _).bind fun _ _ => (placeLocals_keeps _ names).bind fun _ _ => .emitted _

theorem push_keeps : Keeps push fun _ => True := .modify fun _ hc => hc

theorem pop_keeps : Keeps pop fun _ => True := by
  refine Keeps.get.bind fun c hc => ?_
  cases hpop : c.scopes.pop? with
  | none => exact .throw _
  | some scopes => exact .modify fun _ _ => hc.pop hpop

end Compile

/-! ## Everything that is handed over -/

namespace Watched

open Compile

variable {α β : Type} {Q : α → Prop} {R : β → Prop}

theorem mem_log_bind {x : Watched α} {f : α → Watched β} {c : Compilation} {h : Handover} :
    h ∈ (x >>= f).log c ↔
      h ∈ x.log c ∨ ∃ v d, x.run c = .ok v d ∧ h ∈ (f v).log d := by
  change h ∈ x.log c ++ _ ↔ _
  rw [List.mem_append]
  cases x.run c with
  | ok v d => simp
  | error f d => simp

/-- The operation keeps the builtin types known, hands over nothing but normal values, and if it
succeeds its result satisfies `Q`. -/
structure Upholds (x : Watched α) (Q : α → Prop) : Prop where
  run : Keeps x.run Q
  log : ∀ c : Compilation, c.scopes.KnowsBuiltins → ∀ h ∈ x.log c, h.Normal

namespace Upholds

theorem lift {x : Compile α} (h : Keeps x Q) : Upholds (lift x) Q := ⟨h, by simp [Watched.lift]⟩

theorem handing {x : Compile α} {h : Handover} (hx : Keeps x Q) (hh : h.Normal) :
    Upholds (handing h x) Q := ⟨hx, by simpa [Watched.handing] using fun _ _ => hh⟩

theorem pure {v : α} (h : Q v) : Upholds (Pure.pure v) Q := lift (.pure h)

theorem bind {x : Watched α} {f : α → Watched β} (hx : Upholds x Q)
    (hf : ∀ v, Q v → Upholds (f v) R) : Upholds (x >>= f) R where
  run := hx.run.bind fun v hv => (hf v hv).run
  log c hc h hmem := by
    obtain hmem | ⟨v, d, hv, hmem⟩ := mem_log_bind.1 hmem
    · exact hx.log c hc h hmem
    · obtain ⟨hd, hQ⟩ := (hx.run c hc).1 v d hv
      exact (hf v hQ).log d hd h hmem

end Upholds

theorem asValue_upholds {i : Item} (hi : i.Normal) (pos : Position) :
    Upholds (asValue pos i) Value.Normal := by
  refine ⟨asValue_keeps hi pos, fun c _ h hmem => ?_⟩
  cases i with
  | value v =>
      obtain rfl := List.mem_singleton.1 hmem
      have hv : v.Normal := hi
      simpa [Handover.Normal, Handover.values] using hv
  | void => cases hmem

theorem balance_keeps {lhs rhs : Value} (hl : lhs.Normal) (hr : rhs.Normal)
    (hlt : lhs.type.isArray = false) (hrt : rhs.type.isArray = false) :
    Keeps (emit (Emit.balance lhs rhs)) fun x => x.1.Normal ∧ x.2.Normal := by
  have hwiden : ∀ {v u : Value} {t : Ty} {a b : Assembly}, v.Normal → t.isArray = false →
      v.type.size < t.size → Emit.widen v t a = .ok u b → u.Normal := by
    intro v u t a b hv ht hsize hu
    obtain ⟨-, rfl, -⟩ | ⟨hconst, hu⟩ := Emit.widen_ok hu
    · exact hv.withType ht hsize.le
    · have hu := convert_isConst hconst hu
      cases u with
      | const => cases hu
      | reg | mem => trivial
  refine .emit fun a x b hx => ?_
  obtain ⟨hs, hl', hr'⟩ | ⟨hs, hr', hl'⟩ | ⟨-, hl', hr', -⟩ := Emit.balance_ok hx
  · exact ⟨hl' ▸ hl, hwiden hr hlt hs hr'⟩
  · exact ⟨hwiden hl hrt hs hl', hr' ▸ hr⟩
  · exact ⟨hl' ▸ hl, hr' ▸ hr⟩

theorem operation_keeps (op : BinaryOp) (lhs rhs : Value) :
    Keeps (emit (Emit.operation op lhs rhs)) Value.Normal :=
  .emit fun a v b hv => by
    obtain ⟨_, rfl⟩ := Emit.operation_eq_reg hv
    trivial

theorem operate_upholds (op : BinaryOp) {lhs rhs : Value} (hl : lhs.Normal) (hr : rhs.Normal)
    (hlt : lhs.type.isArray = false) (hrt : rhs.type.isArray = false) :
    Upholds (operate op lhs rhs) Value.Normal := by
  unfold operate
  split
  · exact .handing (operation_keeps op _ _)
      (by simpa [Handover.Normal, Handover.values] using ⟨hl, hr⟩)
  · refine (Upholds.handing (balance_keeps hl hr hlt hrt) ?_).bind fun x hx => ?_
    · simpa [Handover.Normal, Handover.values] using ⟨hl, hr⟩
    · exact .handing (operation_keeps op _ _)
        (by simpa [Handover.Normal, Handover.values] using hx)

theorem binary_upholds (op : BinaryOp) (pos : Position) {lhs rhs : Value} (hl : lhs.Normal)
    (hr : rhs.Normal) : Upholds (binary op pos lhs rhs) Value.Normal := by
  refine (Upholds.lift (require_keeps _ _ _)).bind fun _ _ => ?_
  refine (Upholds.lift (require_keeps _ _ _)).bind fun _ hadmits => ?_
  have hscalar : lhs.type.isArray = false ∧ rhs.type.isArray = false := by
    revert hadmits
    cases lhs.type <;> cases rhs.type <;> simp [Ty.admitsWith, Ty.admits, Ty.isArray]
  have hoperate := operate_upholds op hl hr hscalar.1 hscalar.2
  cases lhs with
  | reg | mem => exact hoperate
  | const lt l =>
      cases rhs with
      | reg | mem => exact hoperate
      | const rt r =>
          simp only
          cases hfold : Const.fold op lt l rt r with
          | error p => exact .lift (fail_keeps _ _)
          | ok tn => exact .pure (Const.fold_normal hl hr hfold)

theorem call_upholds (id : Ident) (p : Procedure) {args : List Value}
    (h : ∀ v ∈ args, v.Normal) : Upholds (call id p args) Item.Normal := by
  refine (Upholds.lift (require_keeps _ _ _)).bind fun _ _ => ?_
  refine (Upholds.lift (checkArguments_keeps _ _ _ _)).bind fun _ _ => .handing ?_ h
  refine .emit fun a i b hi => ?_
  obtain rfl | ⟨_, _, -, rfl⟩ := Emit.call_eq_reg hi <;> trivial

theorem assign_upholds (pos : Position) {target source : Value} (ht : target.Normal)
    (hs : source.Normal) : Upholds (assign pos target source) Value.Normal := by
  refine (Upholds.lift (require_keeps _ _ _)).bind fun _ _ => .handing ?_ ?_
  · refine .emit fun a v b hv => ?_
    obtain ⟨_, _, _, _, _, _, -, -, rfl, -⟩ := Emit.assignment_ok hv
    trivial
  · simpa [Handover.Normal, Handover.values] using ⟨ht, hs⟩

theorem arrayCount_upholds (pos : Position) {v : Value} (hv : v.Normal) :
    Upholds (arrayCount pos v) fun _ => True :=
  .handing (arrayCount_keeps pos v) (by simpa [Handover.Normal, Handover.values] using hv)

theorem take_upholds (n : Nat) : Upholds (lift (take n)) fun _ => True := .lift (take_keeps n)

mutual

theorem item_upholds : ∀ {e : Expr}, e.Proper → Upholds (item e) Item.Normal
  | .missing why, _ => by
      rw [item]
      exact .lift (stop_keeps why)
  | .integer pos digits isLong, _ => by
      rw [item]
      refine (take_upholds 1).bind fun _ _ => ?_
      exact (Upholds.lift (integer_keeps pos digits isLong)).bind fun v hv => .pure hv
  | .char _ value, hproper => by
      have hvalue : value.toNat ≤ 0xff := by simpa only [Expr.Proper] using hproper
      rw [item]
      refine (take_upholds 1).bind fun _ _ => ?_
      refine (Upholds.lift (predefinedType_keeps .char)).bind fun t ht => .pure ?_
      subst ht
      exact ⟨.inl ⟨.char, rfl⟩, by omega, by simpa [Builtin.size] using by omega⟩
  | .name id, _ => by
      rw [item]
      refine (take_upholds 1).bind fun _ _ => ?_
      refine (Upholds.lift (lookup_keeps id.name)).bind fun x _ => ?_
      have hvariable : Upholds (do
          let v ← lift (variableNamed id)
          Pure.pure (Item.value v)) Item.Normal :=
        (Upholds.lift (variableNamed_keeps id)).bind fun v hv => .pure hv
      cases x with
      | none => exact hvariable
      | some entity =>
          cases entity with
          | procedure p => exact call_upholds id p (by simp)
          | var | type => exact hvariable
  | .call id as, hproper => by
      rw [item]
      refine (take_upholds 1).bind fun _ _ => ?_
      refine (Upholds.lift (procedureOf_keeps id)).bind fun p _ => ?_
      refine (take_upholds 1).bind fun _ _ => ?_
      exact (arguments_upholds (by simpa only [Expr.Proper] using hproper)).bind fun vs hvs =>
        call_upholds id p hvs
  | .element p, hproper => by
      rw [item]
      exact (place_upholds (by simpa only [Expr.Proper] using hproper)).bind fun v hv => .pure hv
  | .assign target pos source, hproper => by
      obtain ⟨htarget, hsource⟩ : target.Proper ∧ source.Proper := by
        simpa only [Expr.Proper] using hproper
      rw [item]
      refine (place_upholds htarget).bind fun t ht => ?_
      refine (Upholds.lift (require_keeps _ _ _)).bind fun _ _ => ?_
      refine (take_upholds 1).bind fun _ _ => (item_upholds hsource).bind fun i hi => ?_
      refine (asValue_upholds hi source.start).bind fun v hv => ?_
      exact (assign_upholds pos ht hv).bind fun r hr => .pure hr
  | .paren _ inner close, hproper => by
      have hinner : inner.Proper ∧ ProperRead close := by simpa only [Expr.Proper] using hproper
      rw [item]
      refine (take_upholds 1).bind fun _ _ => (item_upholds hinner.1).bind fun i hi => ?_
      refine (asValue_upholds hi inner.start).bind fun v hv => ?_
      exact (Upholds.lift (pass_keeps 1 close)).bind fun _ _ => .pure hv
  | .reference pos operand, hproper => by
      rw [item]
      refine (take_upholds 1).bind fun _ _ => ?_
      refine (item_upholds (by simpa only [Expr.Proper] using hproper)).bind fun i _ => ?_
      exact (Upholds.lift (reference_keeps pos i)).bind fun v hv => .pure hv
  | .negate pos operand, hproper => by
      rw [item]
      refine (take_upholds 1).bind fun _ _ => ?_
      refine (item_upholds (by simpa only [Expr.Proper] using hproper)).bind fun i hi => ?_
      exact (Upholds.lift (negate_keeps hi pos)).bind fun v hv => .pure hv
  | .cast operand pos t, hproper => by
      obtain ⟨hoperand, htype⟩ : operand.Proper ∧ t.Proper := by
        simpa only [Expr.Proper] using hproper
      rw [item]
      refine (item_upholds hoperand).bind fun i hi => ?_
      refine (asValue_upholds hi operand.start).bind fun v _ => ?_
      refine (take_upholds 1).bind fun _ _ => (type_upholds htype).bind fun t _ => ?_
      exact (Upholds.lift (cast_keeps pos v t)).bind fun r hr => .pure hr
  | .binary op pos lhs rhs, hproper => by
      obtain ⟨hlhs, hrhs⟩ : lhs.Proper ∧ rhs.Proper := by simpa only [Expr.Proper] using hproper
      rw [item]
      refine (item_upholds hlhs).bind fun i hi => ?_
      refine (asValue_upholds hi lhs.start).bind fun l hl => ?_
      refine (take_upholds 1).bind fun _ _ => (item_upholds hrhs).bind fun j hj => ?_
      refine (asValue_upholds hj rhs.start).bind fun r hr => ?_
      exact (binary_upholds op pos hl hr).bind fun v hv => .pure hv

theorem place_upholds : ∀ {p : Place}, p.Proper → Upholds (place p) Value.Normal
  | .var id, _ => by
      rw [place]
      exact (take_upholds 1).bind fun _ _ => .lift (variableNamed_keeps id)
  | .element array pos index close, hproper => by
      obtain ⟨harray, hindex, -⟩ : array.Proper ∧ index.Proper ∧ ProperRead close := by
        simpa only [Place.Proper] using hproper
      rw [place]
      refine (place_upholds harray).bind fun a ha => ?_
      refine (Upholds.lift (require_keeps _ _ _)).bind fun _ _ => ?_
      refine (take_upholds 1).bind fun _ _ => (item_upholds hindex).bind fun j hj => ?_
      refine (asValue_upholds hj index.start).bind fun i hi => ?_
      refine (Upholds.lift (require_keeps _ _ _)).bind fun _ _ => ?_
      refine (Upholds.lift (pass_keeps 1 close)).bind fun _ _ => .handing ?_ ?_
      · refine .emit fun _ v b hv => ?_
        obtain ⟨-, _, _, _, _, _, -, -, -, rfl⟩ := Emit.element_eq_mem hv
        trivial
      · simpa [Handover.Normal, Handover.values] using ⟨ha, hi⟩

theorem arguments_upholds : ∀ {as : Args}, as.Proper →
    Upholds (arguments as) fun vs => ∀ v ∈ vs, v.Normal
  | .close close, _ => by
      rw [arguments.eq_1]
      exact (Upholds.lift (pass_keeps 1 close)).bind fun _ _ => .pure (by simp)
  | .cons arg rest, hproper => by
      obtain ⟨harg, hrest⟩ : arg.Proper ∧ rest.Proper := by simpa only [Args.Proper] using hproper
      rw [arguments.eq_2]
      refine (item_upholds harg).bind fun i hi => (asValue_upholds hi arg.start).bind fun v hv => ?_
      have hcons : Upholds (do
          let vs ← arguments rest
          Pure.pure (v :: vs)) fun vs => ∀ v ∈ vs, v.Normal :=
        (arguments_upholds hrest).bind fun vs hvs => .pure (List.forall_mem_cons.2 ⟨hv, hvs⟩)
      cases rest with
      | close => exact hcons
      | cons => exact (take_upholds 1).bind fun _ _ => hcons

theorem type_upholds : ∀ {t : TypeExpr}, t.Proper → Upholds (type t) fun _ => True
  | .missing why, _ => by
      rw [type]
      exact .lift (stop_keeps why)
  | .named id, _ => by
      rw [type]
      refine (Upholds.lift (typeOf_keeps id)).bind fun t _ => ?_
      exact (take_upholds 1).bind fun _ _ => .pure trivial
  | .pointer base, hproper => by
      rw [type]
      refine (type_upholds (by simpa only [TypeExpr.Proper] using hproper)).bind fun t _ => ?_
      exact (take_upholds 1).bind fun _ _ => .pure trivial
  | .array base pos count close, hproper => by
      obtain ⟨hbase, hcount, -⟩ : base.Proper ∧ count.Proper ∧ ProperRead close := by
        simpa only [TypeExpr.Proper] using hproper
      rw [type]
      refine (type_upholds hbase).bind fun t _ => (take_upholds 1).bind fun _ _ => ?_
      refine (item_upholds hcount).bind fun i hi => ?_
      refine (asValue_upholds hi count.start).bind fun v hv => ?_
      refine (arrayCount_upholds pos hv).bind fun n _ => ?_
      refine (Upholds.lift (pass_keeps 1 close)).bind fun _ _ => ?_
      exact (Upholds.lift (require_keeps _ _ _)).bind fun _ _ => .pure trivial
  | .stopped base why, hproper => by
      obtain ⟨hbase, -⟩ : base.Proper ∧ why.Proper := by
        simpa only [TypeExpr.Proper] using hproper
      rw [type]
      exact (type_upholds hbase).bind fun t _ => .lift (stop_keeps why)

end

theorem value_upholds {e : Expr} (h : e.Proper) : Upholds (value e) Value.Normal :=
  (item_upholds h).bind fun _ hi => asValue_upholds hi e.start

theorem statement_upholds {e : Expr} (h : e.Proper) : Upholds (statement e) Item.Normal := by
  cases e with
  | name id =>
      refine (take_upholds 1).bind fun _ _ => ?_
      refine (Upholds.lift (lookup_keeps id.name)).bind fun x _ => ?_
      cases x with
      | none => exact .lift (fail_keeps _ _)
      | some entity =>
          cases entity with
          | procedure p => exact call_upholds id p (by simp)
          | var | type => exact .lift (fail_keeps _ _)
  | element p =>
      have hp : p.Proper := by simpa only [Expr.Proper] using h
      exact (place_upholds hp).bind fun _ _ => .lift (fail_keeps _ _)
  | missing | integer | char | call | assign | paren | reference | negate | cast | binary =>
      exact item_upholds h

theorem declare_upholds (bytes : Nat) {d : Decl} (h : d.Proper) :
    Upholds (declare bytes d) fun _ => True := by
  refine (Upholds.lift (declName_keeps d)).bind fun id _ => ?_
  refine (Upholds.lift (pass_keeps 2 d.colon)).bind fun _ _ => ?_
  refine (type_upholds h.2.2).bind fun t _ => ?_
  refine (Upholds.lift Keeps.get).bind fun c hc => ?_
  split
  · exact (Upholds.lift (fail_keeps _ _)).bind (Q := fun _ => True) fun _ _ =>
      (Upholds.lift (require_keeps _ _ _)).bind fun _ _ => .pure trivial
  · next scopes hscopes =>
    exact (Upholds.lift (.modify fun _ _ => hc.declare hscopes)).bind fun _ _ =>
      (Upholds.lift (require_keeps _ _ _)).bind fun _ _ => .pure trivial

theorem declareAll_upholds (bytes : Nat) {ds : List Decl} (h : ∀ d ∈ ds, d.Proper) :
    Upholds (declareAll bytes ds) fun _ => True := by
  induction ds generalizing bytes with
  | nil => exact .pure trivial
  | cons d ds ih =>
      obtain ⟨hd, hds⟩ := List.forall_mem_cons.1 h
      refine (declare_upholds bytes hd).bind fun r _ => ?_
      obtain ⟨name, total⟩ := r
      have hrest := (ih total hds).bind fun names _ =>
        Upholds.pure (Q := fun _ => True) (v := name :: names) trivial
      simp only
      split
      · exact (take_upholds 1).bind fun _ _ => hrest
      · exact hrest

theorem declList_upholds {l : DeclList} (h : l.Proper) : Upholds (declList l) fun _ => True := by
  refine (Upholds.lift (pass_keeps 1 l.opening)).bind fun _ _ => ?_
  refine (Upholds.lift Keeps.get).bind fun c _ => ?_
  split
  · exact (declareAll_upholds 0 h.2).bind fun names _ => .lift (layOutGlobals_keeps names)
  · exact (Upholds.lift (.emitted _)).bind fun bytes _ => (declareAll_upholds bytes h.2).bind
      fun names _ => .lift (layOutLocals_keeps names)

theorem declLists_upholds {l : Option DeclList} (h : ∀ l' ∈ l, l'.Proper) :
    Upholds (l.forM declList) fun _ => True := by
  cases l with
  | none => exact .pure trivial
  | some l => exact declList_upholds (h l rfl)

theorem statements_upholds {es : List Expr} (h : ∀ e ∈ es, e.Proper) :
    Upholds (statements es) fun _ => True := by
  induction es with
  | nil => exact .pure trivial
  | cons e es ih =>
      obtain ⟨he, hes⟩ := List.forall_mem_cons.1 h
      refine (Upholds.lift (.emitted _)).bind fun before _ => ?_
      refine (statement_upholds he).bind fun i _ => ?_
      refine (Upholds.lift (.emitted _)).bind fun _ _ =>
        (Upholds.lift (.emitted _)).bind fun after _ => ?_
      split
      · exact (Upholds.lift (.throw _)).bind (Q := fun _ => True) fun _ _ => ih hes
      · exact ih hes

theorem block_upholds {b : Block} (h : b.Proper) : Upholds (block b) fun _ => True :=
  (statements_upholds h.1).bind fun _ _ => .lift (pass_keeps 0 b.close)

theorem program_upholds {p : Program} (h : p.Proper) : Upholds (program p) fun _ => True := by
  obtain ⟨hglobals, -, hlocals, hbody, -⟩ := h
  refine (Upholds.lift (.emitted _)).bind fun _ _ => (Upholds.lift (.emitted _)).bind fun _ _ => ?_
  refine (declLists_upholds hglobals).bind fun _ _ => ?_
  refine (Upholds.lift (.emitted _)).bind fun _ _ => ?_
  refine (Upholds.lift (pass_keeps 1 p.opening)).bind fun _ _ => ?_
  refine (Upholds.lift push_keeps).bind fun _ _ => (Upholds.lift (.emitted _)).bind fun _ _ => ?_
  refine (declLists_upholds hlocals).bind fun _ _ => (block_upholds hbody).bind fun _ _ => ?_
  refine (Upholds.lift (.emitted _)).bind fun _ _ => (Upholds.lift pop_keeps).bind fun _ _ => ?_
  exact .lift (pass_keeps 1 p.finish)

end Watched

/-! ## Sessions -/

namespace Session

namespace Phrase

/-- The tree is one that reading can yield. -/
def Proper : (p : Phrase) → p.Tree → Prop
  | .expr _ => Expr.Proper
  | .type => TypeExpr.Proper
  | .declList => DeclList.Proper
  | .block => Block.Proper
  | .program => Program.Proper

/-- If the result is a value, it is normal. -/
def Normal : (p : Phrase) → p.Result → Prop
  | .expr _ => Value.Normal
  | .type | .declList | .block | .program => fun _ => True

theorem read_proper (p : Phrase) {c : Cursor} (hc : c.Proper) : (p.read c).Proper p.Proper := by
  cases p with
  | expr minPrec => exact (Reader.properAt _).expr minPrec hc
  | type => exact (Reader.properAt _).type hc
  | declList => exact Reader.declList_proper hc
  | block => exact Reader.statements_proper _ hc
  | program => exact Reader.program_proper hc

theorem watch_upholds (p : Phrase) {tree : p.Tree} (h : p.Proper tree) :
    (p.watch tree).Upholds p.Normal := by
  cases p with
  | expr minPrec => exact Watched.value_upholds h
  | type => exact Watched.type_upholds h
  | declList => exact Watched.declList_upholds h
  | block => exact Watched.block_upholds h
  | program => exact Watched.program_upholds h

theorem compile_keeps (p : Phrase) {tree : p.Tree} (h : p.Proper tree) :
    Compile.Keeps (p.compile tree) p.Normal :=
  p.run_watch tree ▸ (p.watch_upholds h).run

end Phrase

/-- The session can come about when the text is compiled phrase by phrase, with errors or
without.  Between the phrases anything may be declared and any code be written. -/
inductive Reached (text : List Char) : Session → Prop where
  | start {s : Session} (h : Session.start text = .ok s) : Reached text s
  | ok {s s' : Session} {p : Phrase} {v : p.Result} (h : Reached text s)
      (hrun : p.run s = .ok v s') : Reached text s'
  | error {s s' : Session} {p : Phrase} {f : Failure} (h : Reached text s)
      (hrun : p.run s = .error f s') : Reached text s'
  | scopes {s : Session} (h : Reached text s) (as : List Scopes.Action) :
      Reached text
        { s with compilation := { s.compilation with scopes := s.compilation.scopes.after as } }
  | assembly {s : Session} (h : Reached text s) (a : Assembly) :
      Reached text { s with compilation := { s.compilation with assembly := a } }

/-- The session stands in a text, and the builtin types are in scope. -/
structure Regular (s : Session) : Prop where
  cursor : s.cursor.Proper
  builtins : s.compilation.scopes.KnowsBuiltins

theorem Regular.run {s : Session} (h : s.Regular) (p : Phrase) :
    (∀ v s', p.run s = .ok v s' → s'.Regular ∧ p.Normal v) ∧
      ∀ f s', p.run s = .error f s' → s'.Regular := by
  have hread := p.read_proper h.cursor
  obtain ⟨hok, herror⟩ := p.compile_keeps hread.tree s.fresh h.builtins
  cases hrun : p.compile (p.read s.cursor).tree s.fresh with
  | ok v d =>
      rw [Phrase.run, phrase_of_ok hrun]
      refine ⟨fun v' s' heq => ?_, fun f s' heq => ?_⟩
      · cases heq
        obtain ⟨hd, hv⟩ := hok v d hrun
        exact ⟨⟨hread.rest, hd⟩, hv⟩
      · cases heq
  | error f d =>
      rw [Phrase.run, phrase_of_error hrun]
      refine ⟨fun v s' heq => ?_, fun f' s' heq => ?_⟩
      · cases heq
      · cases heq
        refine ⟨?_, herror f d hrun⟩
        cases hd : d.taken with
        | none => simpa [hd] using hread.rest
        | some n => simpa [hd] using h.cursor.skip n

theorem Reached.regular {text : List Char} {s : Session} (h : s.Reached text) : s.Regular := by
  induction h with
  | @start s h =>
      unfold Session.start at h
      cases hc : Cursor.start (.ofText text) with
      | error e =>
          rw [hc] at h
          cases h
      | ok c =>
          rw [hc] at h
          cases h
          exact ⟨.start hc, Scopes.builtin_globals⟩
  | ok _ hrun ih => exact ((ih.run _).1 _ _ hrun).1
  | error _ hrun ih => exact (ih.run _).2 _ _ hrun
  | scopes _ as ih => exact ⟨ih.cursor, fun b => Scopes.globals_after (ih.builtins b) as⟩
  | assembly _ a ih => exact ⟨ih.cursor, ih.builtins⟩

end Session

theorem Compile.arrayCount_normal {t : Ty} {n : Int} (h : (Value.const t n).Normal)
    (pos : Position) (c : Compilation) :
    arrayCount pos (.const t n) c =
      if 1 ≤ n ∧ n ≤ Ty.countLimit then .ok n.toNat c
      else .error (.problem ⟨.arraySizeRange n, pos⟩) c := by
  obtain ⟨-, hnonneg, -⟩ := h
  split
  · next hrange =>
    have hcheck : (n != 0 && decide (n ≤ Ty.countLimit)) = true := by
      simp only [Bool.and_eq_true, bne_iff_ne, decide_eq_true_eq]
      omega
    rw [arrayCount, hcheck]
    rfl
  · next hrange =>
    have hcheck : (n != 0 && decide (n ≤ Ty.countLimit)) = false := by
      rw [Bool.and_eq_false_iff, bne_eq_false_iff_eq, decide_eq_false_iff_not]
      omega
    rw [arrayCount, hcheck]
    rfl

namespace Emit

variable {v : Value} {t : Ty} {n : Int}

theorem balance_const_right (h : t.size < v.type.size) (a : Assembly) :
    balance v (.const t n) a = .ok (v, .const v.type n) a := by
  rw [balance, if_pos (show (Value.const t n).type.size < v.type.size from h)]
  rfl

theorem balance_const_left (h : t.size < v.type.size) (a : Assembly) :
    balance (.const t n) v a = .ok (.const v.type n, v) a := by
  rw [balance, if_neg (show ¬ v.type.size < (Value.const t n).type.size from h.asymm),
    if_pos (show (Value.const t n).type.size < v.type.size from h)]
  rfl

end Emit

/-- Whatever the text and however far it has been compiled: the value of an expression is normal,
and so is every value that passes through the compilation of a phrase, which a watched compilation
shows without changing it.  So the counts that an array type accepts are those from one to the
largest count and no others, and a constant that is given a wider type to match the other operand
is zero-extended by that. -/
theorem constants_stay_normal (text : List Char) (s : Session) (hs : s.Reached text) :
    (∀ (minPrec : Nat) (v : Value) (s' : Session), Session.expr minPrec s = .ok v s' →
      v.Normal) ∧
    (∀ (p : Session.Phrase) (tree : p.Tree), (p.watch tree).run = p.compile tree) ∧
    (∀ p : Session.Phrase, ∀ h ∈ p.handovers s, ∀ v ∈ h.values, v.Normal) ∧
    (∀ (p : Session.Phrase) (t : Ty) (n : Int), .count (.const t n) ∈ p.handovers s →
      ∀ (pos : Position) (c : Compilation), Compile.arrayCount pos (.const t n) c =
        if 1 ≤ n ∧ n ≤ Ty.countLimit then .ok n.toNat c
        else .error (.problem ⟨.arraySizeRange n, pos⟩) c) ∧
    (∀ (p : Session.Phrase) (lhs rhs : Value), .balance lhs rhs ∈ p.handovers s →
      ∀ (t : Ty) (n : Int) (a : Assembly),
        (rhs = .const t n → t.size < lhs.type.size →
          Emit.balance lhs rhs a = .ok (lhs, .const lhs.type n) a ∧
          (BitVec.ofInt (8 * t.size) n).setWidth (8 * lhs.type.size) =
            BitVec.ofInt (8 * lhs.type.size) n) ∧
        (lhs = .const t n → t.size < rhs.type.size →
          Emit.balance lhs rhs a = .ok (.const rhs.type n, rhs) a ∧
          (BitVec.ofInt (8 * t.size) n).setWidth (8 * rhs.type.size) =
            BitVec.ofInt (8 * rhs.type.size) n)) := by
  have hregular := hs.regular
  have hnormal : ∀ p : Session.Phrase, ∀ h ∈ p.handovers s, ∀ v ∈ h.values, v.Normal :=
    fun p h hmem => (p.watch_upholds (p.read_proper hregular.cursor).tree).log s.fresh
      hregular.builtins h hmem
  refine ⟨fun minPrec v s' h => ((hregular.run (.expr minPrec)).1 v s' h).2,
    fun p tree => p.run_watch tree, hnormal, fun p t n hmem pos c => ?_,
    fun p lhs rhs hmem t n a => ⟨?_, ?_⟩⟩
  · exact Compile.arrayCount_normal (hnormal p _ hmem _ (List.mem_singleton.2 rfl)) pos c
  · rintro rfl hsize
    have hn : (Value.const t n).Normal := hnormal p _ hmem _ (by simp [Handover.values])
    exact ⟨Emit.balance_const_right hsize a, hn.setWidth _⟩
  · rintro rfl hsize
    have hn : (Value.const t n).Normal := hnormal p _ hmem _ (by simp [Handover.values])
    exact ⟨Emit.balance_const_left hsize a, hn.setWidth _⟩

/-- A pointer, made from a number, and a constant that is narrower than it. -/
def pointerText : List Char := "d2i('9') as Byte[3]* + -7".toList

def pointerSession : Session where
  cursor := ⟨⟨.identifier "d2i", .start⟩, (TokenStream.ofText pointerText).next.2⟩
  compilation := { scopes := .builtin }

theorem constants_stay_normal_pointer :
    Session.start pointerText = .ok pointerSession ∧
      .count (.const (.builtin .int) 3) ∈ (Session.Phrase.expr 0).handovers pointerSession ∧
      .balance (.reg (.pointer (.array (.builtin .byte) 3)) .r8)
        (.const (.builtin .int) 4294967289) ∈ (Session.Phrase.expr 0).handovers pointerSession ∧
      (Value.const (.builtin .int) 4294967289).Normal ∧
      BitVec.setWidth 64 4294967289#32 = 4294967289#64 := by
  have hnormal := constants_stay_normal pointerText pointerSession (.start rfl)
  have hcount : .count (.const (.builtin .int) 3) ∈
      (Session.Phrase.expr 0).handovers pointerSession := by decide +kernel
  have hbalance : .balance (.reg (.pointer (.array (.builtin .byte) 3)) .r8)
      (.const (.builtin .int) 4294967289) ∈ (Session.Phrase.expr 0).handovers pointerSession := by
    decide +kernel
  exact ⟨rfl, hcount, hbalance, hnormal.2.2.1 _ _ hbalance _ (by simp [Handover.values]),
    ((hnormal.2.2.2.2 _ _ _ hbalance _ _ {}).1 rfl (by decide)).2⟩

end Tern
