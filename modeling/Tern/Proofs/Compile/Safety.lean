import Tern.Proofs.Compile.Layout
import Tern.Proofs.Tree.Proper
import Tern.Artifact

/-!
# Failures of compilations

A compilation fails because of the program, or because the register pool is exhausted.  No
other fault can be met: the checks made along the tree are those that the operations on values
need, and declarations are laid out as they were declared.
-/

namespace Tern

/-- The failure is an error of the program, or the register pool is exhausted. -/
def Failure.Admissible : Failure → Prop
  | .problem e => e.Proper
  | .fault f => f = .poolExhausted

/-- The scopes still know the builtin types and no procedures but the predefined ones. -/
structure Scopes.Sound (s : Scopes) : Prop where
  builtins : ∀ b : Builtin, s.globals.find? b.name = some (.type b.name (.builtin b))
  procedures : ∀ scope ∈ s.inner ++ [s.globals], ∀ p, .procedure p ∈ scope → Emit.IsPredefined p

theorem Scopes.builtin_sound : Scopes.builtin.Sound := by
  refine ⟨fun b => by cases b <;> decide, fun scope hscope p hp => ?_⟩
  obtain rfl : scope = predefined.reverse := by
    simpa [Scopes.builtin, Scopes.ofGlobals] using hscope
  exact List.mem_reverse.1 hp

theorem Scopes.lookup_mem {s : Scopes} {name : String} {e : Entity}
    (h : s.lookup name = some e) : ∃ scope ∈ s.inner ++ [s.globals], e ∈ scope := by
  obtain ⟨scope, hscope, hfind⟩ := List.exists_of_findSome?_eq_some h
  exact ⟨scope, hscope, List.mem_of_find?_eq_some hfind⟩

theorem Scopes.Sound.isPredefined {s : Scopes} (h : s.Sound) {name : String} {p : Procedure}
    (hp : s.lookup name = some (.procedure p)) : Emit.IsPredefined p := by
  obtain ⟨scope, hscope, hmem⟩ := Scopes.lookup_mem hp
  exact h.procedures scope hscope p hmem

theorem Scopes.Sound.predefinedType {s : Scopes} (h : s.Sound) (b : Builtin) :
    s.predefinedType b.name = .ok (.builtin b) := by
  rw [Scopes.predefinedType, h.builtins b]

namespace Compile

/-- From `c` the operation fails only in an admissible way. -/
abbrev Safe {α : Type} (x : Compile α) (c : Compilation) : Prop :=
  FailsOnly Failure.Admissible x c

variable {α : Type} {c d : Compilation} {pos : Position} {id : Ident}

theorem emit_safe {x : Emit α} (h : ∀ a, FailsOnly (· = .poolExhausted) x a) :
    Safe (emit x) c := by
  intro f d hf
  obtain ⟨e, b, hx, rfl, -⟩ := emit_eq_error.1 hf
  exact h _ e b hx

theorem fail_safe {p : Problem} (h : (p.code == .internal) = false) :
    Safe (fail p pos : Compile α) c := .throw (ne_of_beq_false h)

theorem require_safe (cond : Bool) {p : Problem} (h : (p.code == .internal) = false) :
    Safe (require cond p pos) c := by
  unfold require
  split
  · exact .pure ()
  · exact fail_safe h

theorem take_safe (n : Nat) : Safe (take n) c := .modify _

theorem stop_safe {why : CompileError} (h : why.Proper) : Safe (stop why : Compile α) c := by
  intro f d hf
  rw [stop_eq_error hf]
  exact h

theorem pass_safe (n : Nat) {r : Read Unit} (h : ProperRead r) : Safe (pass n r) c := by
  intro f d hf
  obtain ⟨why, rfl, rfl⟩ := pass_eq_error hf
  exact h why rfl

theorem lookup_safe (name : String) : Safe (lookup name) c :=
  fun _ _ h => (lookup_eq_error.1 h).elim

theorem variableOf_safe : Safe (variableOf id) c := by
  refine (lookup_safe _).bind fun x _ _ => ?_
  split
  · exact .pure _
  · exact fail_safe rfl
  · exact fail_safe rfl

theorem typeOf_safe : Safe (typeOf id) c := by
  refine (lookup_safe _).bind fun x _ _ => ?_
  split
  · exact .pure _
  · exact fail_safe rfl
  · exact fail_safe rfl

theorem procedureOf_safe : Safe (procedureOf id) c := by
  refine (lookup_safe _).bind fun x _ _ => ?_
  split
  · exact .pure _
  · exact fail_safe rfl
  · exact fail_safe rfl

theorem variableNamed_safe : Safe (variableNamed id) c := by
  refine variableOf_safe.bind fun x _ _ => (require_safe _ rfl).bind fun _ _ hplaced =>
    emit_safe ?_
  obtain ⟨storage, hstorage⟩ := Option.isSome_iff_exists.1 (require_eq_ok.1 hplaced).1
  unfold Emit.variableValue
  rw [hstorage]
  cases storage <;> exact fun _ => .pure _

theorem predefinedType_safe (hs : c.scopes.Sound) (b : Builtin) : Safe (predefinedType b) c := by
  refine FailsOnly.get.bind fun c' _ hget => ?_
  obtain ⟨rfl, rfl⟩ := get_eq_ok.1 hget
  rw [hs.predefinedType b]
  exact .pure _

/-! ## Operations on values -/

theorem asValue_safe (i : Item) : Safe (asValue pos i) c := by
  cases i with
  | value v => exact .pure v
  | void => exact fail_safe rfl

theorem integer_safe (hs : c.scopes.Sound) (digits : String) (isLong : Bool) :
    Safe (integer pos digits isLong) c :=
  (predefinedType_safe hs _).bind fun _ _ _ => (require_safe _ rfl).bind fun _ _ _ => .pure _

theorem reference_safe (i : Item) : Safe (reference pos i) c :=
  (require_safe _ rfl).bind fun _ _ h =>
    emit_safe (Emit.reference_uses (require_eq_ok.1 h).1).failsOnly

theorem isArray_of_isBuiltin {t : Ty} (h : t.isBuiltin = true) : t.isArray = false := by
  cases t with
  | builtin b => rfl
  | pointer base | array base n => cases h

theorem negate_safe (i : Item) : Safe (negate pos i) c := by
  refine (asValue_safe i).bind fun v _ _ => (require_safe _ rfl).bind fun _ _ h => ?_
  obtain ⟨w, hw⟩ := Ty.exists_width (isArray_of_isBuiltin (require_eq_ok.1 h).1)
  cases v with
  | const t n => exact .pure _
  | reg t r | mem t m hs => exact emit_safe (Emit.negate_uses rfl hw).failsOnly

theorem cast_safe (v : Value) (t : Ty) : Safe (cast pos v t) c := by
  refine (require_safe _ rfl).bind fun _ _ h => ?_
  have hscalar : t.isArray = false ∧ v.type.isArray = false := by
    simpa using (require_eq_ok.1 h).1
  obtain ⟨w, hw⟩ := Ty.exists_width hscalar.1
  obtain ⟨w', hw'⟩ := Ty.exists_width hscalar.2
  cases v with
  | const s n => exact .pure _
  | reg s r | mem s m hs => exact emit_safe (Emit.convert_uses rfl hw' hw).failsOnly

theorem fold_error {op : BinaryOp} {lt rt : Ty} {l r : Int} {p : Problem}
    (h : Const.fold op lt l rt r = .error p) : p = .divisionByZero := by
  simp only [Const.fold] at h
  split at h
  · cases h
  · cases h
    rfl

theorem binary_safe (op : BinaryOp) (lhs rhs : Value) : Safe (binary op pos lhs rhs) c := by
  refine (require_safe _ rfl).bind fun _ _ _ => (require_safe _ rfl).bind fun _ _ h => ?_
  cases lhs with
  | reg lt l | mem lt m hs => exact emit_safe (Emit.operate_uses (require_eq_ok.1 h).1).failsOnly
  | const lt l =>
      cases rhs with
      | reg rt r | mem rt m hs =>
          exact emit_safe (Emit.operate_uses (require_eq_ok.1 h).1).failsOnly
      | const rt r =>
          simp only
          split
          · exact .pure _
          · next p hfold =>
            obtain rfl := fold_error hfold
            exact fail_safe rfl

theorem checkArguments_safe (n : Nat) (wants : List Ty) (gots : List Value) :
    Safe (checkArguments id n wants gots) c := by
  induction wants generalizing gots n c with
  | nil => exact .pure ()
  | cons want wants ih =>
      cases gots with
      | nil => exact .pure ()
      | cons got gots => exact (require_safe _ rfl).bind fun _ _ _ => ih _ _

theorem call_safe {p : Procedure} (hp : Emit.IsPredefined p) (args : List Value) :
    Safe (call id p args) c := by
  refine (require_safe _ rfl).bind fun _ _ hlength =>
    (checkArguments_safe _ _ _).bind fun _ _ hcheck => emit_safe ?_
  have hlength := eq_of_beq (require_eq_ok.1 hlength).1
  exact (Emit.call_uses hp (checkArguments_ok hlength hcheck).1).failsOnly

theorem assign_safe {t : Ty} {m : Address} {hs : List Register} (ht : t.isArray = false)
    (source : Value) : Safe (assign pos (.mem t m hs) source) c :=
  (require_safe _ rfl).bind fun _ _ h =>
    emit_safe (Emit.assignment_uses ht (eq_of_beq (require_eq_ok.1 h).1)).failsOnly

theorem arrayCount_safe (v : Value) : Safe (arrayCount pos v) c := by
  cases v with
  | const t n => exact (require_safe _ rfl).bind fun _ _ _ => .pure _
  | reg t r | mem t m hs => exact fail_safe rfl

/-! ## Expressions -/

theorem place_eq_mem {tree : Place} {v : Value} (h : place tree c = .ok v d) :
    ∃ t m hs, v = .mem t m hs := by
  cases tree with
  | var id =>
      obtain ⟨c₁, -, hv⟩ := place_var_ok h
      obtain ⟨-, x, -, hx⟩ := variableNamed_ok hv
      obtain ⟨-, ⟨_, _, -, rfl⟩ | ⟨_, _, -, rfl⟩⟩ := Emit.variableValue_ok hx <;>
        exact ⟨_, _, _, rfl⟩
  | element array pos index close =>
      obtain ⟨a, _, _, x, _, _, b, -, -, -, -, -, -, hb, -⟩ := place_element_ok h
      obtain ⟨-, _, _, t, m, hs, -, -, -, rfl⟩ := Emit.element_eq_mem hb
      exact ⟨t, m, hs, rfl⟩

/-- Whether an expression can be constant: a literal, or an operation on others. -/
def isFoldable : Expr → Bool
  | .integer .. | .char .. | .paren .. | .negate .. | .cast .. | .binary .. => true
  | .missing _ | .name _ | .call .. | .element _ | .assign .. | .reference .. => false

theorem item_const_foldable {tree : Expr} {t : Ty} {k : Int}
    (h : item tree c = .ok (.value (.const t k)) d) : isFoldable tree = true := by
  cases tree with
  | integer | char | paren | negate | cast | binary => rfl
  | missing why => exact (item_missing_ok h).elim
  | name id =>
      obtain ⟨c₁, -, ⟨p, -, hcall⟩ | ⟨v, hv, heq⟩⟩ := item_name_ok h
      · obtain ⟨-, b, hb, -⟩ := call_ok hcall
        obtain heq | ⟨_, _, -, heq⟩ := Emit.call_eq_reg hb <;> cases heq
      · obtain ⟨-, x, -, hx⟩ := variableNamed_ok hv
        obtain ⟨-, ⟨_, _, -, rfl⟩ | ⟨_, _, -, rfl⟩⟩ := Emit.variableValue_ok hx <;> cases heq
  | call id as =>
      obtain ⟨p, c₁, vs, c₂, -, -, -, hcall⟩ := item_call_ok h
      obtain ⟨-, b, hb, -⟩ := call_ok hcall
      obtain heq | ⟨_, _, -, heq⟩ := Emit.call_eq_reg hb <;> cases heq
  | element p =>
      obtain ⟨v, hv, heq⟩ := item_element_ok h
      obtain ⟨_, _, _, rfl⟩ := place_eq_mem hv
      cases heq
  | assign target pos source =>
      obtain ⟨_, _, _, _, _, r, -, -, -, -, hr, heq⟩ := item_assign_ok h
      obtain ⟨-, b, hb, -⟩ := assign_ok hr
      obtain ⟨_, _, _, _, _, _, -, -, rfl, -⟩ := Emit.assignment_ok hb
      cases heq
  | reference pos operand =>
      obtain ⟨_, _, _, v, -, -, hv, heq⟩ := item_reference_ok h
      obtain ⟨-, b, hb, -⟩ := reference_ok hv
      obtain ⟨_, _, _, _, -, -, rfl, -⟩ := Emit.reference_ok hb
      cases heq

theorem canIndex_scalar {t index : Ty} (h : t.isIndexableBy index = true) :
    index.isArray = false := by
  simp only [Ty.isIndexableBy, Ty.canIndex, Bool.and_eq_true] at h
  exact isArray_of_isBuiltin h.2

-- As for `item_computes`, the four statements go together along the tree.  The scopes stay the
-- same through every part, so what is known of them can be used behind it.
mutual

theorem item_safe : ∀ {tree : Expr} {c : Compilation}, tree.Proper → c.scopes.Sound →
    Safe (item tree) c
  | .missing _, _, ht, _ => by
      simp only [item]
      exact stop_safe ht
  | .integer .., _, _, hs => by
      simp only [item]
      refine (take_safe 1).bind fun _ _ htake => ?_
      exact (integer_safe ((take_ok htake).scopes ▸ hs) _ _).bind fun _ _ _ => .pure _
  | .char .., _, _, hs => by
      simp only [item]
      refine (take_safe 1).bind fun _ _ htake => ?_
      exact (predefinedType_safe ((take_ok htake).scopes ▸ hs) _).bind fun _ _ _ => .pure _
  | .name _, _, _, hs => by
      simp only [item]
      refine (take_safe 1).bind fun _ c₁ htake => (lookup_safe _).bind fun x _ hlookup => ?_
      have hs : c₁.scopes.Sound := (take_ok htake).scopes ▸ hs
      obtain ⟨hx, -⟩ := lookup_eq_ok.1 hlookup
      split
      · exact call_safe (hs.isPredefined hx) _
      · exact variableNamed_safe.bind fun _ _ _ => .pure _
  | .call _ args, c, ht, hs => by
      simp only [Expr.Proper] at ht
      simp only [item]
      refine (take_safe 1).bind fun _ c₁ htake => procedureOf_safe.bind fun p _ hlookup => ?_
      have hs : c₁.scopes.Sound := (take_ok htake).scopes ▸ hs
      obtain ⟨hp, rfl⟩ := procedureOf_ok hlookup
      refine (take_safe 1).bind fun _ _ htake' => ?_
      exact (arguments_safe ht ((take_ok htake').scopes ▸ hs)).bind fun _ _ _ =>
        call_safe (hs.isPredefined hp) _
  | .element place, _, ht, hs => by
      simp only [Expr.Proper] at ht
      simp only [item]
      exact (place_safe ht hs).bind fun _ _ _ => .pure _
  | .assign target _ source, _, ht, hs => by
      simp only [Expr.Proper] at ht
      simp only [item]
      refine (place_safe ht.1 hs).bind fun v c₁ hv => (require_safe _ rfl).bind fun _ _ hreq => ?_
      obtain ⟨harray, rfl⟩ := require_eq_ok.1 hreq
      obtain ⟨t, m, hs', rfl⟩ := place_eq_mem hv
      refine (take_safe 1).bind fun _ c₂ htake => ?_
      have hs : c₂.scopes.Sound :=
        (take_ok htake).scopes ▸ (place_computes hv).takes.scopes ▸ hs
      exact (item_safe ht.2 hs).bind fun _ _ _ => (asValue_safe _).bind fun _ _ _ =>
        (assign_safe (by simpa [Value.type] using harray) _).bind fun _ _ _ => .pure _
  | .paren _ inner _, _, ht, hs => by
      simp only [Expr.Proper] at ht
      simp only [item]
      refine (take_safe 1).bind fun _ _ htake => ?_
      exact (item_safe ht.1 ((take_ok htake).scopes ▸ hs)).bind fun _ _ _ =>
        (asValue_safe _).bind fun _ _ _ => (pass_safe 1 ht.2).bind fun _ _ _ => .pure _
  | .reference _ operand, _, ht, hs => by
      simp only [Expr.Proper] at ht
      simp only [item]
      refine (take_safe 1).bind fun _ _ htake => ?_
      exact (item_safe ht ((take_ok htake).scopes ▸ hs)).bind fun _ _ _ =>
        (reference_safe _).bind fun _ _ _ => .pure _
  | .negate _ operand, _, ht, hs => by
      simp only [Expr.Proper] at ht
      simp only [item]
      refine (take_safe 1).bind fun _ _ htake => ?_
      exact (item_safe ht ((take_ok htake).scopes ▸ hs)).bind fun _ _ _ =>
        (negate_safe _).bind fun _ _ _ => .pure _
  | .cast operand _ t, _, ht, hs => by
      simp only [Expr.Proper] at ht
      simp only [item]
      refine (item_safe ht.1 hs).bind fun j c₁ hj => (asValue_safe _).bind fun v _ hv => ?_
      obtain ⟨rfl, rfl⟩ := asValue_ok hv
      refine (take_safe 1).bind fun _ c₂ htake => ?_
      have hs : c₂.scopes.Sound :=
        (take_ok htake).scopes ▸ (item_computes hj).takes.scopes ▸ hs
      exact (type_safe ht.2 hs).bind fun _ _ _ => (cast_safe _ _).bind fun _ _ _ => .pure _
  | .binary _ _ lhs rhs, _, ht, hs => by
      simp only [Expr.Proper] at ht
      simp only [item]
      refine (item_safe ht.1 hs).bind fun j c₁ hj => (asValue_safe _).bind fun v _ hv => ?_
      obtain ⟨rfl, rfl⟩ := asValue_ok hv
      refine (take_safe 1).bind fun _ c₂ htake => ?_
      have hs : c₂.scopes.Sound :=
        (take_ok htake).scopes ▸ (item_computes hj).takes.scopes ▸ hs
      exact (item_safe ht.2 hs).bind fun _ _ _ => (asValue_safe _).bind fun _ _ _ =>
        (binary_safe _ _ _).bind fun _ _ _ => .pure _

theorem place_safe : ∀ {tree : Place} {c : Compilation}, tree.Proper → c.scopes.Sound →
    Safe (place tree) c
  | .var _, _, _, _ => by
      simp only [place]
      exact (take_safe 1).bind fun _ _ _ => variableNamed_safe
  | .element array _ index _, _, ht, hs => by
      simp only [Place.Proper] at ht
      simp only [place]
      refine (place_safe ht.1 hs).bind fun a c₁ ha => (require_safe _ rfl).bind fun _ _ hreq => ?_
      obtain ⟨hindexable, rfl⟩ := require_eq_ok.1 hreq
      obtain ⟨t, m, hs', rfl⟩ := place_eq_mem ha
      refine (take_safe 1).bind fun _ c₂ htake => ?_
      have hs : c₂.scopes.Sound :=
        (take_ok htake).scopes ▸ (place_computes ha).takes.scopes ▸ hs
      refine (item_safe ht.2.1 hs).bind fun _ _ _ => (asValue_safe _).bind fun _ _ _ =>
        (require_safe _ rfl).bind fun _ _ hby => (pass_safe 1 ht.2.2).bind fun _ _ _ => emit_safe ?_
      obtain ⟨w, hw⟩ := Ty.exists_width (canIndex_scalar (require_eq_ok.1 hby).1)
      exact (Emit.element_uses rfl hindexable hw).failsOnly

theorem arguments_safe : ∀ {tree : Args} {c : Compilation}, tree.Proper → c.scopes.Sound →
    Safe (arguments tree) c
  | .close _, _, ht, _ => by
      simp only [Args.Proper] at ht
      simp only [arguments]
      exact (pass_safe 1 ht).bind fun _ _ _ => .pure _
  | .cons arg rest, _, ht, hs => by
      simp only [Args.Proper] at ht
      rw [arguments.eq_2]
      refine (item_safe ht.1 hs).bind fun j c₁ hj => (asValue_safe _).bind fun v _ hv => ?_
      have hs : c₁.scopes.Sound := (item_computes hj).takes.scopes ▸ hs
      obtain ⟨rfl, rfl⟩ := asValue_ok hv
      cases rest with
      | close r => exact (arguments_safe ht.2 hs).bind fun _ _ _ => .pure _
      | cons arg' rest' =>
          refine (take_safe 1).bind fun _ _ htake => ?_
          exact (arguments_safe ht.2 ((take_ok htake).scopes ▸ hs)).bind fun _ _ _ => .pure _

theorem type_safe : ∀ {tree : TypeExpr} {c : Compilation}, tree.Proper → c.scopes.Sound →
    Safe (type tree) c
  | .missing _, _, ht, _ => by
      simp only [type]
      exact stop_safe ht
  | .named _, _, _, _ => by
      simp only [type]
      exact typeOf_safe.bind fun _ _ _ => (take_safe 1).bind fun _ _ _ => .pure _
  | .pointer base, _, ht, hs => by
      simp only [TypeExpr.Proper] at ht
      simp only [type]
      exact (type_safe ht hs).bind fun _ _ _ => (take_safe 1).bind fun _ _ _ => .pure _
  | .array base _ count _, _, ht, hs => by
      simp only [TypeExpr.Proper] at ht
      simp only [type]
      refine (type_safe ht.1 hs).bind fun t c₁ hbase => (take_safe 1).bind fun _ c₂ htake => ?_
      have hs : c₂.scopes.Sound := (take_ok htake).scopes ▸ (type_like hbase).scopes ▸ hs
      exact (item_safe ht.2.1 hs).bind fun _ _ _ => (asValue_safe _).bind fun _ _ _ =>
        (arrayCount_safe _).bind fun _ _ _ => (pass_safe 1 ht.2.2).bind fun _ _ _ =>
          (require_safe _ rfl).bind fun _ _ _ => .pure _
  | .stopped base _, _, ht, hs => by
      simp only [TypeExpr.Proper] at ht
      simp only [type]
      exact (type_safe ht.1 hs).bind fun _ _ _ => stop_safe ht.2

end

end Compile

/-! ## Declarations -/

theorem Scopes.Sound.adding {s : Scopes} (h : s.Sound) {vs : List Variable}
    (hnew : ∀ name ∈ vs.map Variable.name, s.innermost.find? name = none) :
    (s.mapInnermost (·.adding vs)).Sound := by
  have hprocedure : ∀ (scope : Scope) (p : Procedure),
      .procedure p ∈ scope.adding vs → .procedure p ∈ scope := by
    intro scope p hp
    simpa [Scope.adding] using hp
  cases hs : s.inner with
  | nil =>
      have hmap : s.mapInnermost (·.adding vs) = { s with globals := s.globals.adding vs } := by
        simp [Scopes.mapInnermost, hs]
      rw [hmap]
      refine ⟨fun b => ?_, fun scope hscope p hp => ?_⟩
      · have hb : b.name ∉ vs.map Variable.name := by
          intro hmem
          have hnone := hnew b.name hmem
          simp only [Scopes.innermost, hs, h.builtins b, reduceCtorEq] at hnone
        exact (Scope.find?_adding_of_notMem hb).trans (h.builtins b)
      · obtain rfl : scope = s.globals.adding vs := by simpa [hs] using hscope
        exact h.procedures s.globals (by simp) p (hprocedure _ _ hp)
  | cons inner outer =>
      have hmap : s.mapInnermost (·.adding vs) = { s with inner := inner.adding vs :: outer } := by
        simp [Scopes.mapInnermost, hs]
      rw [hmap]
      refine ⟨h.builtins, fun scope hscope p hp => ?_⟩
      rcases List.mem_cons.1 hscope with rfl | hscope
      · exact h.procedures inner (by simp [hs]) p (hprocedure _ _ hp)
      · exact h.procedures scope (by rw [hs]; exact List.mem_cons_of_mem _ hscope) p hp

namespace Compile

variable {c d : Compilation}

theorem declName_safe {decl : Decl} (h : decl.Proper) : Safe (declName decl) c := by
  unfold declName
  cases hexp : decl.exported with
  | none =>
      simp only
      split
      · next why hid => exact stop_safe (h.1.1 why hid)
      · exact .pure _
  | some pos =>
      refine FailsOnly.get.bind fun _ _ _ => (require_safe _ rfl).bind fun _ _ _ => ?_
      split
      · next why hid => exact stop_safe (h.1.1 why hid)
      · exact (take_safe 1).bind fun _ _ _ => (require_safe _ rfl).bind fun _ _ _ => .pure _

theorem declare_safe {decl : Decl} (h : decl.Proper) (hs : c.scopes.Sound) (bytes : Nat) :
    Safe (declare bytes decl) c := by
  refine (declName_safe h).bind fun id c₁ hid => (pass_safe 2 h.2.1).bind fun _ c₂ hpass => ?_
  have hs : c₂.scopes.Sound := (pass_ok hpass).1.scopes ▸ (declName_ok hid).2.1.scopes ▸ hs
  refine (type_safe h.2.2 hs).bind fun t _ _ => FailsOnly.get.bind fun _ _ _ => ?_
  split
  · exact fail_safe rfl
  · exact (FailsOnly.modify _).bind fun _ _ _ => (require_safe _ rfl).bind fun _ _ _ => .pure _

theorem declareAll_safe {decls : List Decl} (h : ∀ decl ∈ decls, decl.Proper)
    (hs : c.scopes.Sound) (bytes : Nat) : Safe (declareAll bytes decls) c := by
  induction decls generalizing c bytes with
  | nil => exact .pure _
  | cons decl decls ih =>
      have hrest : ∀ decl ∈ decls, decl.Proper := fun d hd => h d (List.mem_cons_of_mem decl hd)
      rw [declareAll]
      refine (declare_safe (h decl List.mem_cons_self) hs bytes).bind fun r c₁ hr => ?_
      obtain ⟨id, t, _, _, -, -, -, -, -, -, -, hnone, hscopes, -⟩ := declare_ok hr
      have hnew : ∀ name ∈ [decl.variable id t].map Variable.name,
          c.scopes.innermost.find? name = none := by
        intro name hname
        obtain rfl : name = id.name := List.mem_singleton.1 hname
        exact hnone
      have hs : c₁.scopes.Sound := hscopes ▸ hs.adding hnew
      obtain ⟨name, total⟩ := r
      simp only
      split
      · refine (take_safe 1).bind fun _ c₂ htake => ?_
        exact (ih hrest ((take_ok htake).scopes ▸ hs) _).bind fun _ _ _ => .pure _
      · exact (ih hrest hs _).bind fun _ _ _ => .pure _

theorem declList_safe {l : DeclList} (h : l.Proper) (hs : c.scopes.Sound)
    (hframe : c.scopes.isGlobal = false →
      ∃ total outer, c.assembly.frames = total :: outer ∧ total ≤ Ty.sizeLimit) :
    Safe (declList l) c := by
  refine (pass_safe 1 h.1).bind fun _ c₁ hpass => FailsOnly.get.bind fun c₂ _ hget => ?_
  obtain ⟨rfl, rfl⟩ := get_eq_ok.1 hget
  have hlike := (pass_ok hpass).1
  have hs : c₁.scopes.Sound := hlike.scopes ▸ hs
  split
  · refine (declareAll_safe h.2 hs 0).bind fun names c₂ hnames => ?_
    obtain ⟨vs, rfl, -, hdecl, -, hscopes, -⟩ := declareAll_ok (Nat.zero_le _) hnames
    have hinner : c₂.scopes.innermost = c₁.scopes.innermost.adding vs := by
      rw [hscopes, Scopes.innermost_mapInnermost]
    exact .ofOk (layOutGlobals_runs hinner hdecl)
  · next hglobal =>
    rw [hlike.scopes, Bool.not_eq_true] at hglobal
    obtain ⟨total, outer, hframes, hsize⟩ := hframe hglobal
    rw [← hlike.assembly] at hframes
    refine FailsOnly.bindOk (frameBytes_apply hframes) ?_
    refine (declareAll_safe h.2 hs total).bind fun names c₂ hnames => ?_
    obtain ⟨vs, rfl, -, hdecl, htotal, hscopes, hassembly⟩ := declareAll_ok hsize hnames
    have hinner : c₂.scopes.innermost = c₁.scopes.innermost.adding vs := by
      rw [hscopes, Scopes.innermost_mapInnermost]
    exact .ofOk (layOutLocals_runs hinner hdecl (hassembly ▸ hframes) htotal)

/-! ## Statements -/

theorem statement_safe {tree : Expr} (h : tree.Proper) (hs : c.scopes.Sound) :
    Safe (statement tree) c := by
  cases tree with
  | name id =>
      simp only [statement]
      refine (take_safe 1).bind fun _ c₁ htake => (lookup_safe _).bind fun x _ hlookup => ?_
      have hs : c₁.scopes.Sound := (take_ok htake).scopes ▸ hs
      obtain ⟨hx, -⟩ := lookup_eq_ok.1 hlookup
      split
      · exact call_safe (hs.isPredefined hx) _
      · exact fail_safe rfl
  | element p =>
      simp only [Expr.Proper] at h
      simp only [statement]
      exact (place_safe h hs).bind fun _ _ _ => fail_safe rfl
  | missing | integer | char | call | assign | paren | reference | negate | cast | binary =>
      exact item_safe h hs

/-- Where all busy registers are of the pool, which ones are busy is all that `live` shows. -/
theorem live_congr {a b : Assembly} (h : ∀ r, r ∈ a.busy ↔ r ∈ b.busy)
    (hpool : ∀ r ∈ b.busy, r ∈ Register.pool) : a.live = b.live := by
  have hnone : ∀ x : Assembly, (∀ r ∈ x.busy, r ∈ Register.pool) →
      x.busy.filter (fun r => !Register.pool.contains r) = [] := by
    intro x hx
    simpa using hx
  have hbusy : ∀ r, a.busy.contains r = b.busy.contains r := by
    intro r
    rw [Bool.eq_iff_iff, List.contains_iff_mem, List.contains_iff_mem]
    exact h r
  unfold Assembly.live
  rw [hnone a fun r hr => hpool r ((h r).1 hr), hnone b hpool]
  simp only [hbusy]

theorem live_safe : Safe (emit Emit.live) c :=
  emit_safe fun _ => FailsOnly.get.bind fun _ _ _ => .pure _

theorem live_ok {rs : List Register} (h : emit Emit.live c = .ok rs d) :
    rs = c.assembly.live ∧ d = c := by
  simp only [emit_eq_ok, Emit.live, bind_eq_ok, get_eq_ok, pure_eq_ok] at h
  obtain ⟨_, ⟨_, _, ⟨rfl, rfl⟩, rfl, rfl⟩, rfl⟩ := h
  exact ⟨rfl, rfl⟩

theorem discardItem_ok {i : Item} {u : Unit} (h : emit (Emit.discardItem i) c = .ok u d) :
    d = { c with assembly := c.assembly.release i.held } := by
  simp only [emit_eq_ok, Emit.discardItem, Emit.release_eq_ok] at h
  obtain ⟨_, rfl, rfl⟩ := h
  rfl

theorem statements_safe {trees : List Expr} (h : ∀ tree ∈ trees, tree.Proper)
    (hs : c.scopes.Sound) (hpool : ∀ r ∈ c.assembly.busy, r ∈ Register.pool) :
    Safe (statements trees) c := by
  induction trees generalizing c with
  | nil => exact .pure ()
  | cons tree trees ih =>
      rw [statements]
      refine live_safe.bind fun before c₀ hbefore => ?_
      obtain ⟨rfl, rfl⟩ := live_ok hbefore
      refine (statement_safe (h tree List.mem_cons_self) hs).bind fun i c₁ hi => ?_
      have htakes := statement_takes hi
      refine (emit_safe (Emit.release_uses _).failsOnly).bind fun _ c₂ hdiscard => ?_
      rw [← discardItem_ok hdiscard] at htakes
      have hbusy : ∀ r, r ∈ c₂.assembly.busy ↔ r ∈ c₀.assembly.busy := by
        intro r
        simpa using htakes.transfer.busy r
      refine live_safe.bind fun after c₃ hafter => ?_
      obtain ⟨rfl, rfl⟩ := live_ok hafter
      rw [if_neg (not_not_intro (live_congr hbusy hpool))]
      exact ih (fun tree' ht => h tree' (List.mem_cons_of_mem tree ht)) (htakes.scopes ▸ hs)
        fun r hr => hpool r ((hbusy r).1 hr)

theorem block_safe {b : Block} (h : b.Proper) (hs : c.scopes.Sound)
    (hpool : ∀ r ∈ c.assembly.busy, r ∈ Register.pool) : Safe (block b) c :=
  (statements_safe h.1 hs hpool).bind fun _ _ _ => pass_safe 0 h.2

/-! ## Programs -/

theorem Declared.newNames {s : Scope} {vs : List Variable} (h : Declared s vs) :
    ∀ name ∈ vs.map Variable.name, s.find? name = none := by
  intro name hname
  obtain ⟨v, hv, rfl⟩ := List.mem_map.1 hname
  exact h.new v hv

theorem sound_push {s : Scopes} (h : s.Sound) : s.push.Sound := by
  refine ⟨h.builtins, fun scope hscope p hp => ?_⟩
  rcases List.mem_cons.1 hscope with rfl | hscope
  · cases hp
  · exact h.procedures scope hscope p hp

theorem declLists_safe {l : Option DeclList} (h : ∀ l' ∈ l, l'.Proper) (hs : c.scopes.Sound)
    (hframe : c.scopes.isGlobal = false →
      ∃ total outer, c.assembly.frames = total :: outer ∧ total ≤ Ty.sizeLimit) :
    Safe (l.forM declList) c := by
  cases l with
  | none => exact .pure ()
  | some l => exact declList_safe (h l rfl) hs hframe

theorem program_safe {p : Program} (h : p.Proper) (hs : c.scopes.Sound)
    (hglobal : c.scopes.isGlobal = true) (hpool : ∀ r ∈ c.assembly.busy, r ∈ Register.pool) :
    Safe (program p) c := by
  obtain ⟨hglobals, hopening, hlocals, hbody, hfinish⟩ := h
  refine .bindOk programHead_apply (.bindOk dataHead_apply ?_)
  rw [followed_followed]
  have hs₀ : (followed c headLines).scopes.Sound := hs
  have hglobal₀ : (followed c headLines).scopes.isGlobal = true := hglobal
  refine (declLists_safe hglobals hs₀ (by simp [hglobal₀])).bind fun _ c₁ hrun => ?_
  obtain ⟨gvs, -, hgvs, hscopes, hassembly⟩ := globals_ok hglobal₀ hrun
  have hs₁ : c₁.scopes.Sound := by
    rw [hscopes]
    exact hs.adding (map_name_atLabel gvs ▸ hgvs.newNames)
  refine .bindOk (emit_write _) ((pass_safe 1 hopening).bind fun _ c₂ hpass => ?_)
  have hlike := (pass_ok hpass).1
  refine .bindOk push_apply (.bindOk enterProgram_apply ?_)
  have hs₂ : c₂.scopes.push.Sound := sound_push (hlike.scopes ▸ hs₁)
  refine (declLists_safe hlocals hs₂ fun _ => ⟨0, _, rfl, Nat.zero_le _⟩).bind fun _ c₃ hrun' => ?_
  obtain ⟨lvs, -, hlvs, hsize, hscopes', hassembly'⟩ := locals_ok rfl rfl hrun'
  have hs₃ : c₃.scopes.Sound := by
    rw [hscopes']
    exact hs₂.adding (map_name_inFrame 0 lvs ▸ hlvs.newNames)
  have hpool₃ : ∀ r ∈ c₃.assembly.busy, r ∈ Register.pool := by
    rw [hassembly']
    simpa [followed, hlike.assembly, hassembly] using hpool
  refine (block_safe hbody hs₃ hpool₃).bind fun _ c₄ hblock => ?_
  obtain ⟨c₅, hstatements, hlike', -⟩ := block_ok hblock
  have htakes := (statements_take hstatements).like hlike'
  have hframes : c₄.assembly.frames = totalSize lvs :: c₂.assembly.frames := by
    rw [htakes.transfer.frames, hassembly']
    rfl
  refine .bindOk (leaveProgram_apply hframes) (FailsOnly.bind ?_ fun _ _ _ => pass_safe 1 hfinish)
  have hinner : c₄.scopes.pop?.isSome = true := by
    rw [htakes.scopes, hscopes']
    rfl
  refine FailsOnly.get.bind fun c₆ _ hget => ?_
  obtain ⟨rfl, rfl⟩ := get_eq_ok.1 hget
  obtain ⟨scopes, hscopes⟩ := Option.isSome_iff_exists.1 hinner
  simp only [hscopes]
  exact .modify _

end Compile

theorem compileLines_admissible {text : List Char} {f : Failure}
    (h : compileLines text = .error f) : f.Admissible := by
  have hproper := Program.ofText?_proper text
  rw [compileLines_eq] at h
  cases htree : Program.ofText? text with
  | error e =>
      rw [htree] at h hproper
      cases h
      exact hproper
  | ok tree =>
      rw [htree] at h hproper
      have hsafe := Compile.program_safe hproper Scopes.builtin_sound (c := { scopes := .builtin })
        rfl (by simp)
      cases hrun : Compile.program tree { scopes := .builtin } with
      | ok u c => simp only [hrun, reduceCtorEq] at h
      | error g c =>
          simp only [hrun] at h
          cases h
          exact hsafe _ _ hrun

/-- A text compiles to one artifact or fails with one diagnostic.  The only fault of the
compiler itself that any text can bring about is an exhausted register pool, and that is what a
diagnostic with the code of such faults says. -/
theorem compileText_total (file : String) (text : List Char) (layout : Layout)
    (output : Option String) :
    ((∃ artifact, compileText file text layout output = .ok artifact) ∨
      ∃ diagnostic, compileText file text layout output = .error diagnostic ∧
        diagnostic.file = file ∧ diagnostic.severity = .error ∧
        (diagnostic.code = .internal →
          diagnostic.message = "Internal compiler error: " ++ Fault.poolExhausted.message)) ∧
    ∀ fault, compileLines text = .error (.fault fault) → fault = .poolExhausted := by
  refine ⟨?_, fun fault h => compileLines_admissible h⟩
  cases h : compileLines text with
  | ok lines => exact .inl ⟨_, by rw [compileText, h]⟩
  | error f =>
      have hadmissible := compileLines_admissible h
      refine .inr ⟨.ofFailure file f, by rw [compileText, h], ?_⟩
      cases f with
      | problem e => exact ⟨rfl, rfl, fun hcode => absurd hcode hadmissible⟩
      | fault f =>
          obtain rfl : f = .poolExhausted := hadmissible
          exact ⟨rfl, rfl, fun _ => rfl⟩

end Tern
