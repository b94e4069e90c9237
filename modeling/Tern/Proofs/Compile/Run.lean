import Tern.Proofs.Emit.Access
import Tern.Session

/-!
# Runs of compilations

A phrase that compiles is taken apart along its tree.  Counting tokens changes nothing that a
later phrase can see, so compilations are compared by their scopes and their assembly.
-/

namespace Tern

/-- The two compilations differ at most in the tokens counted. -/
structure Compilation.Like (c d : Compilation) : Prop where
  scopes : d.scopes = c.scopes
  assembly : d.assembly = c.assembly

namespace Compilation.Like

variable {c d e : Compilation}

theorem refl (c : Compilation) : c.Like c := ⟨rfl, rfl⟩

theorem trans (h : c.Like d) (h' : d.Like e) : c.Like e :=
  ⟨h'.scopes.trans h.scopes, h'.assembly.trans h.assembly⟩

end Compilation.Like

namespace Compile

variable {α : Type} {c d : Compilation}

theorem emit_eq_ok {x : Emit α} {v : α} :
    emit x c = .ok v d ↔ ∃ b, x c.assembly = .ok v b ∧ { c with assembly := b } = d := by
  unfold emit
  cases x c.assembly with
  | error f b => simp
  | ok u b =>
      constructor
      · intro h
        cases h
        exact ⟨b, rfl, rfl⟩
      · rintro ⟨b', h, rfl⟩
        cases h
        rfl

theorem emit_eq_error {x : Emit α} {f : Failure} :
    emit x c = .error f d ↔
      ∃ e b, x c.assembly = .error e b ∧ f = .fault e ∧ { c with assembly := b } = d := by
  unfold emit
  cases x c.assembly with
  | ok u b => simp
  | error e b =>
      constructor
      · intro h
        cases h
        exact ⟨e, b, rfl, rfl, rfl⟩
      · rintro ⟨e', b', h, rfl, rfl⟩
        cases h
        rfl

theorem emit_bind {β : Type} (x : Emit α) (f : α → Emit β) :
    emit (x >>= f) = emit x >>= fun v => emit (f v) := by
  funext c
  simp only [bind, EStateM.bind, emit]
  cases x c.assembly with
  | ok v a => rfl
  | error e a => rfl

theorem fail_eq_ok {p : Problem} {pos : Position} {v : α} :
    fail p pos c = .ok v d ↔ False := throw_eq_ok

theorem require_eq_ok {cond : Bool} {p : Problem} {pos : Position} {u : Unit} :
    require cond p pos c = .ok u d ↔ cond = true ∧ c = d := by
  unfold require
  cases cond with
  | true => simp [pure_eq_ok]
  | false => simp [fail_eq_ok]

theorem take_ok {n : Nat} {u : Unit} (h : take n c = .ok u d) : c.Like d := by
  rw [take, modify_eq_ok] at h
  subst h
  exact ⟨rfl, rfl⟩

theorem take_eq_error {n : Nat} {f : Failure} : take n c = .error f d ↔ False :=
  modify_eq_error

theorem stop_eq_ok {why : CompileError} {v : α} : stop why c = .ok v d ↔ False := by
  simp only [stop, bind_eq_ok, throw_eq_ok, and_false, exists_false]

theorem stop_eq_error {why : CompileError} {f : Failure}
    (h : (stop why : Compile α) c = .error f d) : f = .problem why := by
  simp only [stop, bind_eq_error, modify_eq_error, modify_eq_ok, throw_eq_error,
    false_or] at h
  obtain ⟨_, _, -, rfl, -⟩ := h
  rfl

theorem pass_ok {n : Nat} {r : Read Unit} {u : Unit} (h : pass n r c = .ok u d) :
    c.Like d ∧ r = .ok () := by
  cases r with
  | ok v => exact ⟨take_ok h, rfl⟩
  | error why => exact (stop_eq_ok.1 h).elim

theorem pass_eq_error {n : Nat} {r : Read Unit} {f : Failure}
    (h : pass n r c = .error f d) : ∃ why, r = .error why ∧ f = .problem why := by
  cases r with
  | ok v => exact (take_eq_error.1 h).elim
  | error why => exact ⟨why, rfl, stop_eq_error h⟩

theorem lookup_eq_ok {name : String} {x : Option Entity} :
    lookup name c = .ok x d ↔ c.scopes.lookup name = x ∧ c = d := by
  simp only [lookup, bind_eq_ok, get_eq_ok, pure_eq_ok]
  constructor
  · rintro ⟨_, _, ⟨rfl, rfl⟩, rfl, rfl⟩
    exact ⟨rfl, rfl⟩
  · rintro ⟨rfl, rfl⟩
    exact ⟨c, c, ⟨rfl, rfl⟩, rfl, rfl⟩

theorem lookup_eq_error {name : String} {f : Failure} : lookup name c = .error f d ↔ False := by
  simp only [lookup, bind_eq_error, get_eq_error, pure_eq_error, false_or, and_false,
    exists_false]

theorem variableOf_ok {id : Ident} {v : Variable} (h : variableOf id c = .ok v d) :
    c.scopes.lookup id.name = some (.var v) ∧ d = c := by
  simp only [variableOf, bind_eq_ok, lookup_eq_ok] at h
  obtain ⟨x, _, ⟨hx, rfl⟩, h⟩ := h
  cases x with
  | none => exact (fail_eq_ok.1 h).elim
  | some e =>
      cases e with
      | var y =>
          obtain ⟨rfl, rfl⟩ := pure_eq_ok.1 h
          exact ⟨hx, rfl⟩
      | type n t => exact (fail_eq_ok.1 h).elim
      | procedure p => exact (fail_eq_ok.1 h).elim

theorem typeOf_ok {id : Ident} {t : Ty} (h : typeOf id c = .ok t d) :
    (∃ name, c.scopes.lookup id.name = some (.type name t)) ∧ d = c := by
  simp only [typeOf, bind_eq_ok, lookup_eq_ok] at h
  obtain ⟨x, _, ⟨hx, rfl⟩, h⟩ := h
  cases x with
  | none => exact (fail_eq_ok.1 h).elim
  | some e =>
      cases e with
      | type n s =>
          obtain ⟨rfl, rfl⟩ := pure_eq_ok.1 h
          exact ⟨⟨n, hx⟩, rfl⟩
      | var y => exact (fail_eq_ok.1 h).elim
      | procedure p => exact (fail_eq_ok.1 h).elim

theorem procedureOf_ok {id : Ident} {p : Procedure} (h : procedureOf id c = .ok p d) :
    c.scopes.lookup id.name = some (.procedure p) ∧ d = c := by
  simp only [procedureOf, bind_eq_ok, lookup_eq_ok] at h
  obtain ⟨x, _, ⟨hx, rfl⟩, h⟩ := h
  cases x with
  | none => exact (fail_eq_ok.1 h).elim
  | some e =>
      cases e with
      | procedure q =>
          obtain ⟨rfl, rfl⟩ := pure_eq_ok.1 h
          exact ⟨hx, rfl⟩
      | var y => exact (fail_eq_ok.1 h).elim
      | type n t => exact (fail_eq_ok.1 h).elim

theorem variableNamed_ok {id : Ident} {v : Value} (h : variableNamed id c = .ok v d) :
    d = c ∧ ∃ x, c.scopes.lookup id.name = some (.var x) ∧
      Emit.variableValue x c.assembly = .ok v c.assembly := by
  simp only [variableNamed, bind_eq_ok, require_eq_ok, emit_eq_ok] at h
  obtain ⟨x, _, hx, _, _, ⟨-, rfl⟩, b, hv, rfl⟩ := h
  obtain ⟨hx, rfl⟩ := variableOf_ok hx
  obtain ⟨rfl, -⟩ := Emit.variableValue_ok hv
  exact ⟨rfl, x, hx, hv⟩

theorem predefinedType_ok {t : Builtin} {s : Ty} (h : predefinedType t c = .ok s d) :
    c.scopes.predefinedType t.name = .ok s ∧ d = c := by
  simp only [predefinedType, bind_eq_ok, get_eq_ok] at h
  obtain ⟨_, _, ⟨rfl, rfl⟩, h⟩ := h
  cases hp : c.scopes.predefinedType t.name with
  | error f =>
      rw [hp] at h
      exact (throw_eq_ok.1 h).elim
  | ok s' =>
      rw [hp] at h
      obtain ⟨rfl, rfl⟩ := pure_eq_ok.1 h
      exact ⟨rfl, rfl⟩

/-! ## Operations on values -/

theorem asValue_ok {pos : Position} {i : Item} {v : Value} (h : asValue pos i c = .ok v d) :
    i = .value v ∧ d = c := by
  cases i with
  | value u =>
      obtain ⟨rfl, rfl⟩ := pure_eq_ok.1 h
      exact ⟨rfl, rfl⟩
  | void => exact (fail_eq_ok.1 h).elim

theorem integer_ok {pos : Position} {digits : String} {isLong : Bool} {v : Value}
    (h : integer pos digits isLong c = .ok v d) :
    ∃ t, c.scopes.predefinedType (if isLong then Builtin.long else .int).name = .ok t ∧
      Const.reduce t (Const.ofDigits digits.toList) = Const.ofDigits digits.toList ∧
      v = .const t (Const.ofDigits digits.toList) ∧ d = c := by
  simp only [integer, bind_eq_ok, require_eq_ok, pure_eq_ok] at h
  obtain ⟨t, _, ht, _, _, ⟨hn, rfl⟩, rfl, rfl⟩ := h
  obtain ⟨ht, rfl⟩ := predefinedType_ok ht
  exact ⟨t, ht, by simpa using hn, rfl, rfl⟩

theorem reference_ok {pos : Position} {i : Item} {v : Value}
    (h : reference pos i c = .ok v d) :
    i.isInMemory = true ∧ ∃ b, Emit.reference i c.assembly = .ok v b ∧
      { c with assembly := b } = d := by
  simp only [reference, bind_eq_ok, require_eq_ok, emit_eq_ok] at h
  obtain ⟨_, _, ⟨hi, rfl⟩, h⟩ := h
  exact ⟨hi, h⟩

theorem negate_ok {pos : Position} {i : Item} {v : Value} (h : negate pos i c = .ok v d) :
    ∃ u, i = .value u ∧ u.type.isBuiltin = true ∧
      ((∃ t n, u = .const t n ∧ v = .const t (Const.reduce t (-n)) ∧ d = c) ∨
      (u.isConst = false ∧ ∃ b, Emit.negate (.value u) c.assembly = .ok v b ∧
        { c with assembly := b } = d)) := by
  simp only [negate, bind_eq_ok, require_eq_ok] at h
  obtain ⟨u, _, hu, _, _, ⟨ht, rfl⟩, h⟩ := h
  obtain ⟨rfl, rfl⟩ := asValue_ok hu
  refine ⟨u, rfl, ht, ?_⟩
  cases u with
  | const t n =>
      obtain ⟨rfl, rfl⟩ := pure_eq_ok.1 h
      exact .inl ⟨t, n, rfl, rfl, rfl⟩
  | reg t r | mem t m hs => exact .inr ⟨rfl, emit_eq_ok.1 h⟩

theorem cast_ok {pos : Position} {u v : Value} {t : Ty} (h : cast pos u t c = .ok v d) :
    t.isArray = false ∧ u.type.isArray = false ∧
      ((∃ s n, u = .const s n ∧ v = .const t (Const.reduce t n) ∧ d = c) ∨
      (u.isConst = false ∧ ∃ b, Emit.convert u t c.assembly = .ok v b ∧
        { c with assembly := b } = d)) := by
  simp only [cast, bind_eq_ok, require_eq_ok, Bool.and_eq_true, Bool.not_eq_true'] at h
  obtain ⟨_, _, ⟨⟨ht, hu⟩, rfl⟩, h⟩ := h
  refine ⟨ht, hu, ?_⟩
  cases u with
  | const s n =>
      obtain ⟨rfl, rfl⟩ := pure_eq_ok.1 h
      exact .inl ⟨s, n, rfl, rfl, rfl⟩
  | reg s r | mem s m hs => exact .inr ⟨rfl, emit_eq_ok.1 h⟩

theorem binary_ok {op : BinaryOp} {pos : Position} {lhs rhs v : Value}
    (h : binary op pos lhs rhs c = .ok v d) :
    lhs.type.admitsWith op rhs.type = true ∧
      ((∃ lt l rt r t n, lhs = .const lt l ∧ rhs = .const rt r ∧
        Const.fold op lt l rt r = .ok (t, n) ∧ v = .const t n ∧ d = c) ∨
      (¬(lhs.isConst = true ∧ rhs.isConst = true) ∧
        ∃ b, operate op lhs rhs c.assembly = .ok v b ∧ { c with assembly := b } = d)) := by
  simp only [binary, bind_eq_ok, require_eq_ok] at h
  obtain ⟨_, _, ⟨-, rfl⟩, _, _, ⟨ht, rfl⟩, h⟩ := h
  refine ⟨ht, ?_⟩
  cases lhs with
  | reg lt l | mem lt m hs => exact .inr ⟨by simp [Value.isConst], emit_eq_ok.1 h⟩
  | const lt l =>
      cases rhs with
      | reg rt r | mem rt m hs => exact .inr ⟨by simp [Value.isConst], emit_eq_ok.1 h⟩
      | const rt r =>
          simp only at h
          cases hf : Const.fold op lt l rt r with
          | error p =>
              rw [hf] at h
              exact (fail_eq_ok.1 h).elim
          | ok tn =>
              rw [hf] at h
              obtain ⟨rfl, rfl⟩ := pure_eq_ok.1 h
              exact .inl ⟨lt, l, rt, r, tn.1, tn.2, rfl, rfl, hf, rfl, rfl⟩

theorem checkArguments_ok {id : Ident} {n : Nat} {wants : List Ty} {gots : List Value} {u : Unit}
    (hlength : gots.length = wants.length) (h : checkArguments id n wants gots c = .ok u d) :
    gots.map Value.type = wants ∧ d = c := by
  induction wants generalizing gots n with
  | nil =>
      obtain rfl := List.length_eq_zero_iff.1 hlength
      obtain ⟨-, rfl⟩ := pure_eq_ok.1 h
      exact ⟨rfl, rfl⟩
  | cons want wants ih =>
      cases gots with
      | nil => simp at hlength
      | cons got gots =>
          simp only [checkArguments, bind_eq_ok, require_eq_ok] at h
          obtain ⟨_, _, ⟨ht, rfl⟩, h⟩ := h
          obtain ⟨hrest, rfl⟩ := ih (by simpa using hlength) h
          exact ⟨by rw [List.map_cons, hrest, eq_of_beq ht], rfl⟩

theorem call_ok {id : Ident} {p : Procedure} {args : List Value} {i : Item}
    (h : call id p args c = .ok i d) :
    args.map Value.type = p.params ∧
      ∃ b, Emit.call p (args.map Item.value) c.assembly = .ok i b ∧
        { c with assembly := b } = d := by
  simp only [call, bind_eq_ok, require_eq_ok, emit_eq_ok] at h
  obtain ⟨_, _, ⟨hlength, rfl⟩, _, _, hcheck, h⟩ := h
  obtain ⟨htypes, rfl⟩ := checkArguments_ok (eq_of_beq hlength) hcheck
  exact ⟨htypes, h⟩

theorem assign_ok {pos : Position} {target source v : Value}
    (h : assign pos target source c = .ok v d) :
    target.type = source.type ∧
      ∃ b, Emit.assignment (.value target) (.value source) c.assembly = .ok v b ∧
        { c with assembly := b } = d := by
  simp only [assign, bind_eq_ok, require_eq_ok, emit_eq_ok] at h
  obtain ⟨_, _, ⟨ht, rfl⟩, h⟩ := h
  exact ⟨eq_of_beq ht, h⟩

theorem arrayCount_ok {pos : Position} {v : Value} {n : Nat}
    (h : arrayCount pos v c = .ok n d) :
    ∃ t k, v = .const t k ∧ k ≠ 0 ∧ k ≤ Ty.countLimit ∧ n = k.toNat ∧ d = c := by
  cases v with
  | const t k =>
      simp only [arrayCount, bind_eq_ok, require_eq_ok, pure_eq_ok, Bool.and_eq_true, bne_iff_ne,
        decide_eq_true_eq] at h
      obtain ⟨_, _, ⟨⟨hzero, hmax⟩, rfl⟩, rfl, rfl⟩ := h
      exact ⟨t, k, rfl, hzero, hmax, rfl, rfl⟩
  | reg t r | mem t m hs => exact (fail_eq_ok.1 h).elim

/-! ## Expressions, places, arguments and types -/

-- The equations of the mutual recursion are made once, for all the lemmas that follow.
attribute [local simp] item place arguments type

variable {pos : Position} {id : Ident} {i : Item} {close : Read Unit}

theorem item_missing_ok {why : CompileError} (h : item (.missing why) c = .ok i d) : False := by
  simp only [item] at h
  exact stop_eq_ok.1 h

theorem item_integer_ok {digits : String} {isLong : Bool}
    (h : item (.integer pos digits isLong) c = .ok i d) :
    ∃ c₁ v, c.Like c₁ ∧ integer pos digits isLong c₁ = .ok v d ∧ i = .value v := by
  simp only [item, bind_eq_ok, pure_eq_ok] at h
  obtain ⟨_, c₁, htake, v, _, hv, rfl, rfl⟩ := h
  exact ⟨c₁, v, take_ok htake, hv, rfl⟩

theorem item_char_ok {value : Char} (h : item (.char pos value) c = .ok i d) :
    ∃ t, c.scopes.predefinedType Builtin.char.name = .ok t ∧
      i = .value (.const t value.toNat) ∧ c.Like d := by
  simp only [item, bind_eq_ok, pure_eq_ok] at h
  obtain ⟨_, c₁, htake, t, _, ht, rfl, rfl⟩ := h
  obtain ⟨ht, rfl⟩ := predefinedType_ok ht
  have hlike := take_ok htake
  exact ⟨t, by rw [← hlike.scopes, ht], rfl, hlike⟩

theorem item_name_ok (h : item (.name id) c = .ok i d) :
    ∃ c₁, c.Like c₁ ∧
      ((∃ p, c.scopes.lookup id.name = some (.procedure p) ∧ call id p [] c₁ = .ok i d) ∨
      ∃ v, variableNamed id c₁ = .ok v d ∧ i = .value v) := by
  simp only [item, bind_eq_ok, lookup_eq_ok] at h
  obtain ⟨_, c₁, htake, x, _, ⟨hx, rfl⟩, h⟩ := h
  have hlike := take_ok htake
  refine ⟨c₁, hlike, ?_⟩
  have hvar : (do let v ← variableNamed id; return Item.value v : Compile Item) c₁ = .ok i d →
      ∃ v, variableNamed id c₁ = .ok v d ∧ i = .value v := by
    intro h
    simp only [bind_eq_ok, pure_eq_ok] at h
    obtain ⟨v, _, hv, rfl, rfl⟩ := h
    exact ⟨v, hv, rfl⟩
  cases x with
  | none => exact .inr (hvar h)
  | some e =>
      cases e with
      | procedure p => exact .inl ⟨p, by rw [← hlike.scopes, hx], h⟩
      | var x => exact .inr (hvar h)
      | type n t => exact .inr (hvar h)

theorem item_call_ok {as : Args} (h : item (.call id as) c = .ok i d) :
    ∃ p c₁ vs c₂, c.scopes.lookup id.name = some (.procedure p) ∧ c.Like c₁ ∧
      arguments as c₁ = .ok vs c₂ ∧ call id p vs c₂ = .ok i d := by
  simp only [item, bind_eq_ok] at h
  obtain ⟨_, c₁, htake, p, _, hp, _, c₂, htake', vs, c₃, hvs, h⟩ := h
  obtain ⟨hp, rfl⟩ := procedureOf_ok hp
  have hlike := take_ok htake
  exact ⟨p, c₂, vs, c₃, by rw [← hlike.scopes, hp], hlike.trans (take_ok htake'), hvs, h⟩

theorem item_element_ok {p : Place} (h : item (.element p) c = .ok i d) :
    ∃ v, place p c = .ok v d ∧ i = .value v := by
  simp only [item, bind_eq_ok, pure_eq_ok] at h
  obtain ⟨v, _, hv, rfl, rfl⟩ := h
  exact ⟨v, hv, rfl⟩

theorem item_assign_ok {target : Place} {source : Expr}
    (h : item (.assign target pos source) c = .ok i d) :
    ∃ t c₁ c₂ v c₃ r, place target c = .ok t c₁ ∧ t.type.isArray = false ∧ c₁.Like c₂ ∧
      item source c₂ = .ok (.value v) c₃ ∧ assign pos t v c₃ = .ok r d ∧ i = .value r := by
  simp only [item, bind_eq_ok, require_eq_ok, pure_eq_ok, Bool.not_eq_true'] at h
  obtain ⟨t, _, ht, _, c₁, ⟨hscalar, rfl⟩, _, c₂, htake, j, _, hj, v, c₃, hv, r, _, hr, rfl,
    rfl⟩ := h
  obtain ⟨rfl, rfl⟩ := asValue_ok hv
  exact ⟨t, _, c₂, v, _, r, ht, hscalar, take_ok htake, hj, hr, rfl⟩

theorem item_paren_ok {inner : Expr} (h : item (.paren pos inner close) c = .ok i d) :
    ∃ c₁ v c₂, c.Like c₁ ∧ item inner c₁ = .ok (.value v) c₂ ∧ c₂.Like d ∧ i = .value v := by
  simp only [item, bind_eq_ok, pure_eq_ok] at h
  obtain ⟨_, c₁, htake, j, _, hj, v, c₂, hv, _, _, hpass, rfl, rfl⟩ := h
  obtain ⟨rfl, rfl⟩ := asValue_ok hv
  exact ⟨c₁, v, _, take_ok htake, hj, (pass_ok hpass).1, rfl⟩

theorem item_reference_ok {operand : Expr} (h : item (.reference pos operand) c = .ok i d) :
    ∃ c₁ j c₂ v, c.Like c₁ ∧ item operand c₁ = .ok j c₂ ∧ reference pos j c₂ = .ok v d ∧
      i = .value v := by
  simp only [item, bind_eq_ok, pure_eq_ok] at h
  obtain ⟨_, c₁, htake, j, c₂, hj, v, _, hv, rfl, rfl⟩ := h
  exact ⟨c₁, j, c₂, v, take_ok htake, hj, hv, rfl⟩

theorem item_negate_ok {operand : Expr} (h : item (.negate pos operand) c = .ok i d) :
    ∃ c₁ j c₂ v, c.Like c₁ ∧ item operand c₁ = .ok j c₂ ∧ negate pos j c₂ = .ok v d ∧
      i = .value v := by
  simp only [item, bind_eq_ok, pure_eq_ok] at h
  obtain ⟨_, c₁, htake, j, c₂, hj, v, _, hv, rfl, rfl⟩ := h
  exact ⟨c₁, j, c₂, v, take_ok htake, hj, hv, rfl⟩

theorem item_cast_ok {operand : Expr} {te : TypeExpr}
    (h : item (.cast operand pos te) c = .ok i d) :
    ∃ u c₁ c₂ t c₃ v, item operand c = .ok (.value u) c₁ ∧ c₁.Like c₂ ∧
      type te c₂ = .ok t c₃ ∧ cast pos u t c₃ = .ok v d ∧ i = .value v := by
  simp only [item, bind_eq_ok, pure_eq_ok] at h
  obtain ⟨j, _, hj, u, c₁, hu, _, c₂, htake, t, c₃, ht, v, _, hv, rfl, rfl⟩ := h
  obtain ⟨rfl, rfl⟩ := asValue_ok hu
  exact ⟨u, _, c₂, t, c₃, v, hj, take_ok htake, ht, hv, rfl⟩

theorem item_binary_ok {op : BinaryOp} {lhs rhs : Expr}
    (h : item (.binary op pos lhs rhs) c = .ok i d) :
    ∃ l c₁ c₂ r c₃ v, item lhs c = .ok (.value l) c₁ ∧ c₁.Like c₂ ∧
      item rhs c₂ = .ok (.value r) c₃ ∧ binary op pos l r c₃ = .ok v d ∧ i = .value v := by
  simp only [item, bind_eq_ok, pure_eq_ok] at h
  obtain ⟨j, _, hj, l, c₁, hl, _, c₂, htake, k, _, hk, r, c₃, hr, v, _, hv, rfl, rfl⟩ := h
  obtain ⟨rfl, rfl⟩ := asValue_ok hl
  obtain ⟨rfl, rfl⟩ := asValue_ok hr
  exact ⟨l, _, c₂, r, _, v, hj, take_ok htake, hk, hv, rfl⟩

theorem place_var_ok {v : Value} (h : place (.var id) c = .ok v d) :
    ∃ c₁, c.Like c₁ ∧ variableNamed id c₁ = .ok v d := by
  simp only [place, bind_eq_ok] at h
  obtain ⟨_, c₁, htake, h⟩ := h
  exact ⟨c₁, take_ok htake, h⟩

theorem place_element_ok {array : Place} {index : Expr} {v : Value}
    (h : place (.element array pos index close) c = .ok v d) :
    ∃ a c₁ c₂ x c₃ c₄ b, place array c = .ok a c₁ ∧ a.type.isIndexable = true ∧ c₁.Like c₂ ∧
      item index c₂ = .ok (.value x) c₃ ∧ a.type.isIndexableBy x.type = true ∧ c₃.Like c₄ ∧
      Emit.element (.value a) (.value x) c₄.assembly = .ok v b ∧
      { c₄ with assembly := b } = d := by
  simp only [place, bind_eq_ok, require_eq_ok, emit_eq_ok] at h
  obtain ⟨a, _, ha, _, c₁, ⟨hindexable, rfl⟩, _, c₂, htake, j, _, hj, x, c₃, hx, _, _,
    ⟨hby, rfl⟩, _, c₄, hpass, b, hb, rfl⟩ := h
  obtain ⟨rfl, rfl⟩ := asValue_ok hx
  exact ⟨a, _, c₂, x, _, c₄, b, ha, hindexable, take_ok htake, hj, hby, (pass_ok hpass).1, hb,
    rfl⟩

theorem arguments_close_ok {vs : List Value} (h : arguments (.close close) c = .ok vs d) :
    vs = [] ∧ c.Like d := by
  simp only [arguments, bind_eq_ok, pure_eq_ok] at h
  obtain ⟨_, _, hpass, rfl, rfl⟩ := h
  exact ⟨rfl, (pass_ok hpass).1⟩

theorem arguments_cons_ok {arg : Expr} {rest : Args} {vs : List Value}
    (h : arguments (.cons arg rest) c = .ok vs d) :
    ∃ v c₁ c₂ vs', item arg c = .ok (.value v) c₁ ∧ c₁.Like c₂ ∧
      arguments rest c₂ = .ok vs' d ∧ vs = v :: vs' := by
  rw [arguments.eq_2] at h
  simp only [bind_eq_ok] at h
  obtain ⟨j, _, hj, v, c₁, hv, h⟩ := h
  obtain ⟨rfl, rfl⟩ := asValue_ok hv
  cases rest with
  | close r =>
      simp only [bind_eq_ok, pure_eq_ok] at h
      obtain ⟨vs', _, hvs, rfl, rfl⟩ := h
      exact ⟨v, _, _, vs', hj, .refl _, hvs, rfl⟩
  | cons arg' rest' =>
      simp only [bind_eq_ok, pure_eq_ok] at h
      obtain ⟨_, c₂, htake, vs', _, hvs, rfl, rfl⟩ := h
      exact ⟨v, _, c₂, vs', hj, take_ok htake, hvs, rfl⟩

variable {t : Ty}

theorem type_missing_ok {why : CompileError} (h : type (.missing why) c = .ok t d) : False := by
  simp only [type] at h
  exact stop_eq_ok.1 h

theorem type_named_ok (h : type (.named id) c = .ok t d) :
    (∃ name, c.scopes.lookup id.name = some (.type name t)) ∧ c.Like d := by
  simp only [type, bind_eq_ok, pure_eq_ok] at h
  obtain ⟨t', _, ht, _, _, htake, rfl, rfl⟩ := h
  obtain ⟨ht, rfl⟩ := typeOf_ok ht
  exact ⟨ht, take_ok htake⟩

theorem type_pointer_ok {base : TypeExpr} (h : type (.pointer base) c = .ok t d) :
    ∃ s c₁, type base c = .ok s c₁ ∧ c₁.Like d ∧ t = .pointer s := by
  simp only [type, bind_eq_ok, pure_eq_ok] at h
  obtain ⟨s, c₁, hs, _, _, htake, rfl, rfl⟩ := h
  exact ⟨s, c₁, hs, take_ok htake, rfl⟩

theorem type_array_ok {base : TypeExpr} {count : Expr}
    (h : type (.array base pos count close) c = .ok t d) :
    ∃ s c₁ c₂ u k c₃, type base c = .ok s c₁ ∧ c₁.Like c₂ ∧
      item count c₂ = .ok (.value (.const u k)) c₃ ∧ k ≠ 0 ∧ k ≤ Ty.countLimit ∧
      k.toNat * s.size ≤ Ty.sizeLimit ∧ c₃.Like d ∧ t = .array s k.toNat := by
  simp only [type, bind_eq_ok, require_eq_ok, pure_eq_ok, decide_eq_true_eq] at h
  obtain ⟨s, c₁, hs, _, c₂, htake, j, _, hj, v, c₃, hv, n, _, hn, _, _, hpass, _, _,
    ⟨hsize, rfl⟩, rfl, rfl⟩ := h
  obtain ⟨rfl, rfl⟩ := asValue_ok hv
  obtain ⟨u, k, rfl, hzero, hmax, rfl, rfl⟩ := arrayCount_ok hn
  exact ⟨s, c₁, c₂, u, k, _, hs, take_ok htake, hj, hzero, hmax, hsize, (pass_ok hpass).1, rfl⟩

theorem type_stopped_ok {base : TypeExpr} {why : CompileError}
    (h : type (.stopped base why) c = .ok t d) : False := by
  simp only [type, bind_eq_ok, stop_eq_ok, and_false, exists_false] at h

/-! ## Statements -/

theorem statement_ok {tree : Expr} (h : statement tree c = .ok i d) : item tree c = .ok i d := by
  cases tree with
  | name id =>
      simp only [statement, item, bind_eq_ok, lookup_eq_ok] at h ⊢
      obtain ⟨u, c₁, htake, x, _, ⟨hx, rfl⟩, h⟩ := h
      refine ⟨u, c₁, htake, x, c₁, ⟨hx, rfl⟩, ?_⟩
      cases x with
      | none => exact (fail_eq_ok.1 h).elim
      | some e =>
          cases e with
          | procedure p => exact h
          | var x | type n t => exact (fail_eq_ok.1 h).elim
  | element p =>
      simp only [statement, bind_eq_ok, fail_eq_ok, and_false, exists_false] at h
  | missing | integer | char | call | assign | paren | reference | negate | cast | binary => exact h

theorem statements_cons_ok {tree : Expr} {trees : List Expr} {u : Unit}
    (h : statements (tree :: trees) c = .ok u d) :
    ∃ i c₁, statement tree c = .ok i c₁ ∧ (c₁.assembly.release i.held).live = c.assembly.live ∧
      statements trees { c₁ with assembly := c₁.assembly.release i.held } = .ok u d := by
  simp only [statements, bind_eq_ok, emit_eq_ok, Emit.live, Emit.discardItem, get_eq_ok,
    pure_eq_ok, Emit.release_eq_ok] at h
  obtain ⟨_, _, ⟨_, ⟨_, _, ⟨rfl, rfl⟩, rfl, rfl⟩, rfl⟩, i, c₁, hi, _, _, ⟨_, rfl, rfl⟩, _, _,
    ⟨_, ⟨_, _, ⟨rfl, rfl⟩, rfl, rfl⟩, rfl⟩, h⟩ := h
  split at h
  · simp only [bind_eq_ok, throw_eq_ok, false_and, exists_false] at h
  · next hlive => exact ⟨i, c₁, hi, Classical.not_not.1 hlive, h⟩

theorem block_ok {b : Block} {u : Unit} (h : block b c = .ok u d) :
    ∃ c₁, statements b.statements c = .ok () c₁ ∧ c₁.Like d ∧ b.close = .ok () := by
  simp only [block, bind_eq_ok] at h
  obtain ⟨_, c₁, hs, hpass⟩ := h
  exact ⟨c₁, hs, pass_ok hpass⟩

theorem value_ok {tree : Expr} {v : Value} (h : value tree c = .ok v d) :
    item tree c = .ok (.value v) d := by
  simp only [value, bind_eq_ok] at h
  obtain ⟨j, _, hj, hv⟩ := h
  obtain ⟨rfl, rfl⟩ := asValue_ok hv
  exact hj

end Compile

namespace Session

variable {α β : Type} {read : Cursor → Outcome α} {compile : α → Compile β} {s s' : Session}

/-- The compilation with which a session goes into its next phrase. -/
def fresh (s : Session) : Compilation := { s.compilation with taken := some 0 }

theorem phrase_ok {v : β} (h : phrase read compile s = .ok v s') :
    compile (read s.cursor).tree s.fresh = .ok v s'.compilation := by
  unfold phrase at h
  cases hrun : compile (read s.cursor).tree { s.compilation with taken := some 0 } with
  | error f d => simp only [hrun, reduceCtorEq] at h
  | ok u d =>
      simp only [hrun] at h
      cases h
      exact hrun

theorem phrase_of_ok {v : β} {d : Compilation}
    (h : compile (read s.cursor).tree s.fresh = .ok v d) :
    phrase read compile s = .ok v ⟨(read s.cursor).rest, d⟩ := by
  rw [fresh] at h
  simp only [phrase, h]

theorem phrase_of_error {f : Failure} {d : Compilation}
    (h : compile (read s.cursor).tree s.fresh = .error f d) :
    phrase read compile s =
      .error f ⟨d.taken.elim (read s.cursor).rest s.cursor.skip, d⟩ := by
  rw [fresh] at h
  simp only [phrase, h]

end Session

end Tern
