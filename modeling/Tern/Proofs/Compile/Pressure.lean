import Tern.Proofs.Compile.Safety
import Tern.Proofs.Tree.Climbing

/-!
# Register pressure

An expression without parentheses, brackets, calls and assignments keeps at most one register
for each level of operators above the place where it is being compiled.  Eight registers are
therefore enough for it, however long it is, and the pool has nine.
-/

namespace Tern

def TypeExpr.isFlat : TypeExpr → Bool
  | .missing _ | .named _ => true
  | .pointer base | .stopped base _ => base.isFlat
  | .array .. => false

/-- No parentheses, brackets, calls or assignments in the expression. -/
def Expr.isFlat : Expr → Bool
  | .missing _ | .integer .. | .char .. | .name _ => true
  | .reference _ operand | .negate _ operand => operand.isFlat
  | .cast operand _ t => operand.isFlat && t.isFlat
  | .binary _ _ lhs rhs => lhs.isFlat && rhs.isFlat
  | .call .. | .element _ | .assign .. | .paren .. => false

def Expr.isFlatAssignment : Expr → Bool
  | .assign (.var _) _ value => value.isFlat
  | _ => false

namespace Emit

variable {a b : Assembly} {e : Fault}

theorem call_nil_error {p : Procedure} (h : call p [] a = .error e b) : e ≠ .poolExhausted := by
  have hperform : ∀ {a e b}, perform p [] a = .error e b → e ≠ .poolExhausted := by
    intro a e b h
    cases hroutine : p.routine with
    | writeEln =>
        simp only [perform, hroutine] at h
        obtain ⟨c, hline⟩ : ∃ c, writeNewline a = .ok () c :=
          ⟨_, reserving_eq_ok.2 ⟨_, rfl, rfl⟩⟩
        rw [bind_of_ok hline] at h
        exact (pure_eq_error.1 h).elim
    | digitToInt | other name =>
        simp only [perform, hroutine, throw_eq_error] at h
        simp [← h.1]
  unfold call at h
  simp only [tryFinally, tryFinally', Functor.map, EStateM.map] at h
  cases hrun : perform p [] a with
  | ok i c =>
      simp only [hrun, forM_discardItem] at h
      cases h
  | error e' c =>
      simp only [hrun, forM_discardItem] at h
      cases h
      exact hperform hrun

end Emit

namespace Compile

/-- From `c` the operation does not exhaust the register pool. -/
abbrev Fits {α : Type} (x : Compile α) (c : Compilation) : Prop :=
  FailsOnly (· ≠ .fault .poolExhausted) x c

variable {α : Type} {c d : Compilation} {pos : Position} {id : Ident} {need cost : Nat}

theorem emit_fits {x : Emit α} (h : Emit.Uses x need cost) (hspare : need ≤ c.assembly.spare) :
    Fits (emit x) c := by
  intro f d hf
  obtain ⟨e, b, hx, -, -⟩ := emit_eq_error.1 hf
  have hlt := (h.fails hx).2
  omega

theorem fail_fits {p : Problem} : Fits (fail p pos : Compile α) c := .throw (by simp)

theorem require_fits (cond : Bool) {p : Problem} : Fits (require cond p pos) c := by
  unfold require
  split
  · exact .pure ()
  · exact fail_fits

theorem take_fits (n : Nat) : Fits (take n) c := .modify _

theorem stop_fits {why : CompileError} : Fits (stop why : Compile α) c := by
  intro f d hf
  rw [stop_eq_error hf]
  simp

theorem lookup_fits (name : String) : Fits (lookup name) c :=
  fun _ _ h => (lookup_eq_error.1 h).elim

theorem variableOf_fits : Fits (variableOf id) c := by
  apply (lookup_fits _).bind
  intro x _ _
  split
  · exact .pure _
  · exact fail_fits
  · exact fail_fits

theorem typeOf_fits : Fits (typeOf id) c := by
  apply (lookup_fits _).bind
  intro x _ _
  split
  · exact .pure _
  · exact fail_fits
  · exact fail_fits

theorem variableNamed_fits : Fits (variableNamed id) c := by
  apply variableOf_fits.bind
  intro v _ _
  apply (require_fits _).bind
  intro _ c' _ f d hf
  obtain ⟨e, b, hx, rfl, -⟩ := emit_eq_error.1 hf
  cases hstorage : v.storage with
  | none =>
      simp only [Emit.variableValue, hstorage, throw_eq_error] at hx
      simp [← hx.1]
  | some storage =>
      cases storage with
      | global | frame =>
          simp only [Emit.variableValue, hstorage] at hx
          exact (pure_eq_error.1 hx).elim

theorem predefinedType_fits (b : Builtin) : Fits (predefinedType b) c := by
  refine FailsOnly.get.bind fun c' _ _ => ?_
  cases htype : c'.scopes.predefinedType b.name with
  | ok t => exact .pure t
  | error f =>
      have hf : f = .missingBuiltin b.name := by
        unfold Scopes.predefinedType at htype
        split at htype
        · cases htype
        · exact (Except.error.inj htype).symm
      exact .throw (by simp [hf])

theorem asValue_fits (i : Item) : Fits (asValue pos i) c := by
  cases i with
  | value v => exact .pure v
  | void => exact fail_fits

theorem call_fits (p : Procedure) : Fits (call id p []) c := by
  apply (require_fits _).bind
  intro _ _ _
  refine FailsOnly.bind ?_ fun _ _ _ => ?_
  · cases p.params <;> exact .pure ()
  · intro f d hf
    obtain ⟨e, b, hx, rfl, -⟩ := emit_eq_error.1 hf
    simpa using Emit.call_nil_error hx

theorem reference_fits (i : Item) (hspare : 1 ≤ c.assembly.spare) : Fits (reference pos i) c := by
  apply (require_fits _).bind
  intro _ _ h
  obtain ⟨hmemory, rfl⟩ := require_eq_ok.1 h
  exact emit_fits (Emit.reference_uses hmemory) hspare

theorem negate_fits (i : Item) (hspare : 1 ≤ c.assembly.spare) : Fits (negate pos i) c := by
  apply (asValue_fits i).bind
  intro v _ hv
  obtain ⟨-, rfl⟩ := asValue_ok hv
  apply (require_fits _).bind
  intro _ _ h
  obtain ⟨hbuiltin, rfl⟩ := require_eq_ok.1 h
  obtain ⟨w, hw⟩ := Ty.exists_width (isArray_of_isBuiltin hbuiltin)
  cases v with
  | const t n => exact .pure _
  | reg t r | mem t m hs => exact emit_fits (Emit.negate_uses rfl hw) hspare

theorem cast_fits (v : Value) (t : Ty) (hspare : 1 ≤ c.assembly.spare) :
    Fits (cast pos v t) c := by
  apply (require_fits _).bind
  intro _ _ h
  obtain ⟨hscalar, rfl⟩ := require_eq_ok.1 h
  simp only [Bool.and_eq_true, Bool.not_eq_true'] at hscalar
  obtain ⟨w, hw⟩ := Ty.exists_width hscalar.1
  obtain ⟨w', hw'⟩ := Ty.exists_width hscalar.2
  cases v with
  | const s n => exact .pure _
  | reg s r | mem s m hs => exact emit_fits (Emit.convert_uses rfl hw' hw) hspare

theorem binary_fits (op : BinaryOp) (lhs rhs : Value) (hspare : 4 ≤ c.assembly.spare) :
    Fits (binary op pos lhs rhs) c := by
  apply (require_fits _).bind
  intro _ _ h
  obtain ⟨-, rfl⟩ := require_eq_ok.1 h
  apply (require_fits _).bind
  intro _ _ h
  obtain ⟨hadmits, rfl⟩ := require_eq_ok.1 h
  have huses := Emit.operate_uses hadmits
  cases lhs with
  | reg lt l | mem lt m hs => exact emit_fits huses hspare
  | const lt l =>
      cases rhs with
      | reg rt r | mem rt m hs => exact emit_fits huses hspare
      | const rt r =>
          simp only
          split
          · exact .pure _
          · exact fail_fits

theorem assign_fits {t : Ty} {m : Address} {hs : List Register} (ht : t.isArray = false)
    (source : Value) (hspare : 1 ≤ c.assembly.spare) :
    Fits (assign pos (.mem t m hs) source) c := by
  apply (require_fits _).bind
  intro _ _ h
  obtain ⟨htypes, rfl⟩ := require_eq_ok.1 h
  exact emit_fits (Emit.assignment_uses ht (eq_of_beq htypes)) hspare

/-! ## Expressions -/

theorem item_held_le {i : Item} : ∀ {tree : Expr} {c d : Compilation}, tree.isFlat = true →
    item tree c = .ok i d → i.held.length ≤ 1
  | .missing _, _, _, _, h => (item_missing_ok h).elim
  | .integer .., _, _, _, h => by
      obtain ⟨_, _, -, hv, rfl⟩ := item_integer_ok h
      obtain ⟨_, -, -, rfl, -⟩ := integer_ok hv
      simp [Item.held, Value.held]
  | .char .., _, _, _, h => by
      obtain ⟨_, -, rfl, -⟩ := item_char_ok h
      simp [Item.held, Value.held]
  | .name _, _, _, _, h => by
      obtain ⟨_, -, ⟨p, -, hcall⟩ | ⟨v, hv, rfl⟩⟩ := item_name_ok h
      · obtain ⟨-, _, hb, -⟩ := call_ok hcall
        obtain rfl | ⟨_, _, -, rfl⟩ := Emit.call_eq_reg hb <;> simp [Item.held, Value.held]
      · obtain ⟨-, _, -, hx⟩ := variableNamed_ok hv
        simp [Item.held, (Emit.variableValue_closed hx).1]
  | .reference .., _, _, _, h => by
      obtain ⟨_, _, _, v, -, -, hv, rfl⟩ := item_reference_ok h
      obtain ⟨-, _, hb, -⟩ := reference_ok hv
      obtain ⟨_, _, _, _, -, -, rfl, -⟩ := Emit.reference_ok hb
      simp [Item.held, Value.held]
  | .negate .., _, _, _, h => by
      obtain ⟨_, _, _, v, -, -, hv, rfl⟩ := item_negate_ok h
      obtain ⟨_, -, -, ⟨_, _, -, rfl, -⟩ | ⟨-, _, hb, -⟩⟩ := negate_ok hv
      · simp [Item.held, Value.held]
      · obtain ⟨_, _, _, _, -, -, -, -, -, rfl, -⟩ := Emit.negate_ok hb
        simp [Item.held, Value.held]
  | .cast operand _ _, _, _, hflat, h => by
      simp only [Expr.isFlat, Bool.and_eq_true] at hflat
      obtain ⟨u, _, _, t, _, v, hu, -, -, hv, rfl⟩ := item_cast_ok h
      have hheld := item_held_le hflat.1 hu
      obtain ⟨-, -, ⟨_, _, -, rfl, -⟩ | ⟨-, _, hb, -⟩⟩ := cast_ok hv
      · simp [Item.held, Value.held]
      · rcases Emit.convert_ok hb with ⟨-, rfl, -⟩ | ⟨-, hb⟩
        · simpa [Item.held] using hheld
        · rcases Emit.resize_ok hb with ⟨_, _, -, rfl, -⟩ | ⟨_, _, _, _, _, -, rfl, -⟩ <;>
            simp [Item.held, Value.held]
  | .binary .., _, _, _, h => by
      obtain ⟨_, _, _, _, _, v, -, -, -, hv, rfl⟩ := item_binary_ok h
      obtain ⟨-, ⟨_, _, _, _, _, _, -, -, -, rfl, -⟩ | ⟨-, _, hb, -⟩⟩ := binary_ok hv
      · simp [Item.held, Value.held]
      · obtain ⟨_, _, rfl⟩ := Emit.operate_eq_reg hb
        simp [Item.held, Value.held]
  | .call .., _, _, hflat, _ | .element _, _, _, hflat, _ | .assign .., _, _, hflat, _
  | .paren .., _, _, hflat, _ => by simp [Expr.isFlat] at hflat

theorem item_spare_le {tree : Expr} {i : Item} (hflat : tree.isFlat = true)
    (h : item tree c = .ok i d) : c.assembly.spare ≤ d.assembly.spare + 1 := by
  have hheld := item_held_le hflat h
  have hspare : c.assembly.spare ≤ d.assembly.spare + i.held.length := by
    apply Assembly.spare_le
    intro r hr _
    simpa using ((item_computes h).takes.transfer.busy r).1 hr
  omega

theorem type_fits : ∀ {t : TypeExpr} {c : Compilation}, t.isFlat = true → Fits (type t) c
  | .missing _, _, _ => by
      simp only [type]
      exact stop_fits
  | .named _, _, _ => by
      simp only [type]
      exact typeOf_fits.bind fun _ _ _ => (take_fits 1).bind fun _ _ _ => .pure _
  | .pointer base, _, h => by
      have hbase : base.isFlat = true := h
      simp only [type]
      exact (type_fits hbase).bind fun _ _ _ => (take_fits 1).bind fun _ _ _ => .pure _
  | .stopped base _, _, h => by
      have hbase : base.isFlat = true := h
      simp only [type]
      exact (type_fits hbase).bind fun _ _ _ => stop_fits
  | .array .., _, h => by simp [TypeExpr.isFlat] at h

theorem unary_fits {operand : Expr} {f : Item → Compile Value} (hflat : operand.isFlat = true)
    (hoperand : ∀ {c'}, c.Like c' → Fits (item operand) c') (hspare : 2 ≤ c.assembly.spare)
    (hf : ∀ i {c'}, 1 ≤ c'.assembly.spare → Fits (f i) c') :
    Fits (do take 1; let i ← item operand; let v ← f i; return Item.value v) c := by
  apply (take_fits 1).bind
  intro _ c₁ htake
  apply (hoperand (take_ok htake)).bind
  intro i c₂ hi
  have hleft := item_spare_le hflat hi
  rw [(take_ok htake).assembly] at hleft
  exact (hf i (by omega)).bind fun _ _ _ => .pure _

-- The bound goes down by one at each right operand: the operators there bind tighter, and one
-- register at most holds the left operand meanwhile.
/-- A flat expression fits, if `8 - n` registers are spare where its operators bind at least as
tightly as `n`. -/
theorem item_fits : ∀ {tree : Expr} {n : Nat} {c : Compilation}, tree.isFlat = true →
    tree.Climbs n → n ≤ 3 → 8 - n ≤ c.assembly.spare → Fits (item tree) c
  | .missing _, _, _, _, _, _, _ => by
      simp only [item]
      exact stop_fits
  | .integer .., _, _, _, _, _, _ => by
      simp only [item]
      apply (take_fits 1).bind
      intro _ _ _
      refine FailsOnly.bind ?_ fun _ _ _ => .pure _
      exact (predefinedType_fits _).bind fun _ _ _ => (require_fits _).bind fun _ _ _ => .pure _
  | .char .., _, _, _, _, _, _ => by
      simp only [item]
      exact (take_fits 1).bind fun _ _ _ => (predefinedType_fits _).bind fun _ _ _ => .pure _
  | .name _, _, _, _, _, _, _ => by
      simp only [item]
      apply (take_fits 1).bind
      intro _ _ _
      apply (lookup_fits _).bind
      intro x _ _
      split
      · exact call_fits _
      · exact variableNamed_fits.bind fun _ _ _ => .pure _
  | .reference _ operand, _, _, hflat, hclimbs, hn, hspare => by
      have hoperand : operand.isFlat = true := hflat
      simp only [item]
      refine unary_fits hoperand (fun hlike => ?_) (by omega) fun i _ h => reference_fits i h
      exact item_fits hoperand hclimbs le_rfl (by rw [hlike.assembly]; omega)
  | .negate _ operand, _, _, hflat, hclimbs, hn, hspare => by
      have hoperand : operand.isFlat = true := hflat
      simp only [item]
      refine unary_fits hoperand (fun hlike => ?_) (by omega) fun i _ h => negate_fits i h
      exact item_fits hoperand hclimbs le_rfl (by rw [hlike.assembly]; omega)
  | .cast operand _ t, _, c, hflat, hclimbs, hn, hspare => by
      simp only [Expr.isFlat, Bool.and_eq_true] at hflat
      simp only [item]
      have hfits : Fits (item operand) c := item_fits hflat.1 hclimbs le_rfl (by omega)
      apply hfits.bind
      intro i c₁ hi
      have hleft := item_spare_le hflat.1 hi
      apply (asValue_fits i).bind
      intro v c₂ hv
      obtain ⟨rfl, rfl⟩ := asValue_ok hv
      apply (take_fits 1).bind
      intro _ c₃ htake
      apply (type_fits hflat.2).bind
      intro s c₄ hs
      have hlike : c₄.assembly = c₂.assembly := ((take_ok htake).trans (type_like hs)).assembly
      exact (cast_fits v s (by rw [hlike]; omega)).bind fun _ _ _ => .pure _
  | .binary op _ lhs rhs, n, _, hflat, hclimbs, hn, hspare => by
      simp only [Expr.isFlat, Bool.and_eq_true] at hflat
      obtain ⟨hop, hl, hr⟩ := hclimbs
      have hprec := op.precedence_lt
      simp only [item]
      apply (item_fits hflat.1 hl hn hspare).bind
      intro i c₁ hi
      have hleft := item_spare_le hflat.1 hi
      apply (asValue_fits i).bind
      intro l _ hv
      obtain ⟨rfl, rfl⟩ := asValue_ok hv
      apply (take_fits 1).bind
      intro _ c₂ htake
      have hlike := (take_ok htake).assembly
      have hfits : Fits (item rhs) c₂ := item_fits hflat.2 hr (by omega) (by rw [hlike]; omega)
      apply hfits.bind
      intro j c₃ hj
      have hright := item_spare_le hflat.2 hj
      rw [hlike] at hright
      apply (asValue_fits j).bind
      intro r _ hv
      obtain ⟨rfl, rfl⟩ := asValue_ok hv
      exact (binary_fits op l r (by omega)).bind fun _ _ _ => .pure _
  | .call .., _, _, hflat, _, _, _ | .element _, _, _, hflat, _, _, _
  | .assign .., _, _, hflat, _, _, _ | .paren .., _, _, hflat, _, _, _ => by
      simp [Expr.isFlat] at hflat

/-! ## Statements -/

theorem assignment_fits {e : Expr} (hread : (Expr.assign (.var id) pos e).IsStatement)
    (hflat : e.isFlat = true) (hfree : c.assembly.busy = []) :
    Fits (statement (.assign (.var id) pos e)) c := by
  have hclimbs := hread.climbs
  have hspare : c.assembly.spare = 9 := by
    rw [Assembly.spare, hfree]
    rfl
  have hplace : Fits (place (.var id)) c := by
    simp only [place]
    exact (take_fits 1).bind fun _ _ _ => variableNamed_fits
  simp only [statement, item]
  apply hplace.bind
  intro v c₁ hv
  obtain ⟨t, m, hs, rfl⟩ := place_eq_mem hv
  obtain ⟨c₂, hlike, hvariable⟩ := place_var_ok hv
  obtain ⟨rfl, -⟩ := variableNamed_ok hvariable
  apply (require_fits _).bind
  intro _ c₃ h
  obtain ⟨hscalar, rfl⟩ := require_eq_ok.1 h
  apply (take_fits 1).bind
  intro _ c₄ htake
  have hassembly : c₄.assembly = c.assembly := (hlike.trans (take_ok htake)).assembly
  have hfits : Fits (item e) c₄ := item_fits hflat hclimbs (by omega) (by rw [hassembly]; omega)
  apply hfits.bind
  intro i c₅ hi
  have hleft := item_spare_le hflat hi
  rw [hassembly] at hleft
  apply (asValue_fits i).bind
  intro u c₆ hu
  obtain ⟨rfl, rfl⟩ := asValue_ok hu
  have htarget : t.isArray = false := by simpa [Value.type] using hscalar
  exact (assign_fits htarget u (by omega)).bind fun _ _ _ => .pure _

theorem live_fits : Fits (emit Emit.live) c := by
  intro f d hf
  obtain ⟨e, b, hx, -, -⟩ := emit_eq_error.1 hf
  cases hx

theorem statements_fit {trees : List Expr} (hfree : c.assembly.busy = [])
    (hfits : ∀ tree ∈ trees, ∀ c : Compilation, c.assembly.busy = [] → Fits (statement tree) c) :
    Fits (statements trees) c := by
  induction trees generalizing c with
  | nil => exact .pure ()
  | cons tree trees ih =>
      rw [List.forall_mem_cons] at hfits
      rw [statements]
      apply live_fits.bind
      intro before c₀ hbefore
      obtain ⟨rfl, rfl⟩ := live_ok hbefore
      apply (hfits.1 c₀ hfree).bind
      intro i c₁ hi
      have htakes := statement_takes hi
      apply (emit_fits (Emit.release_uses i.held) (Nat.zero_le _)).bind
      intro _ c₂ hdiscard
      rw [← discardItem_ok hdiscard] at htakes
      have hfree₂ : c₂.assembly.busy = [] := by
        apply List.eq_nil_iff_forall_not_mem.2
        intro r hr
        simpa [hfree] using (htakes.transfer.busy r).1 hr
      apply live_fits.bind
      intro after c₃ hafter
      obtain ⟨rfl, rfl⟩ := live_ok hafter
      split
      · exact FailsOnly.bind (.throw (by simp)) fun _ _ h => (throw_eq_ok.1 h).elim
      · exact ih hfree₂ hfits.2

theorem block_fits {b : Block} (hfree : c.assembly.busy = [])
    (hfits : ∀ tree ∈ b.statements, ∀ c : Compilation, c.assembly.busy = [] →
      Fits (statement tree) c) : Fits (block b) c := by
  apply (statements_fit hfree hfits).bind
  intro _ _ _ f d hf
  obtain ⟨why, -, rfl⟩ := pass_eq_error hf
  simp

end Compile

theorem Program.allStatements_of_ofText? {text : List Char} {tree : Program}
    (h : Program.ofText? text = .ok tree) : tree.body.AllStatements := by
  unfold Program.ofText? at h
  cases hstart : Cursor.start (.ofText text) with
  | error e => simp [hstart, Except.map] at h
  | ok c =>
      simp only [hstart, Except.map, Except.ok.injEq] at h
      rw [← h]
      exact Reader.program_allStatements c

/-- An assignment of an expression without parentheses, brackets, calls and assignments to a
variable is compiled without exhausting the register pool, however long the expression is, if no
register is in use before it.  So is a block of such statements. -/
theorem long_expressions_fit :
    (∀ (target : Ident) (pos : Position) (e : Expr),
      (Expr.assign (.var target) pos e).IsStatement → e.isFlat = true →
      ∀ c : Compilation, c.assembly.busy = [] →
      ∀ d, Compile.statement (.assign (.var target) pos e) c ≠ .error (.fault .poolExhausted) d) ∧
    (∀ (text : List Char) (tree : Program), Program.ofText? text = .ok tree →
      (∀ s ∈ tree.body.statements, s.isFlatAssignment = true) →
      ∀ c : Compilation, c.assembly.busy = [] →
      ∀ d, Compile.block tree.body c ≠ .error (.fault .poolExhausted) d) := by
  constructor
  · intro target pos e hread hflat c hfree d hd
    exact Compile.assignment_fits hread hflat hfree _ d hd rfl
  · intro text tree htree hstatements c hfree d hd
    refine Compile.block_fits hfree (fun s hs c hfree => ?_) _ d hd rfl
    have hflat := hstatements s hs
    have hread := Program.allStatements_of_ofText? htree s hs
    unfold Expr.isFlatAssignment at hflat
    split at hflat
    · exact Compile.assignment_fits hread hflat hfree
    · cases hflat

/-- Operators of all levels, with an operand pending at each of them. -/
def mixedText : List Char :=
  "begin x := -x << -x - -x * -x as Byte / x % -x + x >> 2 as Byte - -x end".toList

/-- A global variable `x`, and no register in use. -/
def mixedStart : Compilation where
  scopes := .ofGlobals
    [.var { name := "x", type := .builtin .int, storage := some (.global "x" 4) },
      .type "Byte" (.builtin .byte), .type "Int" (.builtin .int)]

/-- The statement is flat, alone in its block, and compiled without failure. -/
def mixes (tree : Program) : Bool :=
  match tree.body.statements with
  | [.assign (.var _) _ value] =>
      value.isFlat && match Compile.block tree.body mixedStart with
        | .ok .. => true
        | .error .. => false
  | _ => false

theorem long_expressions_fit_mixed :
    ∃ tree s, Program.ofText? mixedText = .ok tree ∧ tree.body.statements = [s] ∧
      s.isFlatAssignment = true ∧ (∃ d, Compile.block tree.body mixedStart = .ok () d) ∧
      (∀ d, Compile.statement s mixedStart ≠ .error (.fault .poolExhausted) d) ∧
      ∀ d, Compile.block tree.body mixedStart ≠ .error (.fault .poolExhausted) d := by
  have hmixes : (Program.ofText? mixedText).toOption.any mixes = true := by decide +kernel
  cases htree : Program.ofText? mixedText with
  | error e => simp [htree, Except.toOption] at hmixes
  | ok tree =>
      simp only [htree, Except.toOption, Option.any_some] at hmixes
      have hread := Program.allStatements_of_ofText? htree
      unfold mixes at hmixes
      split at hmixes
      · next target pos value hbody =>
        simp only [Bool.and_eq_true] at hmixes
        obtain ⟨hflat, hblock⟩ := hmixes
        have hall : ∀ s ∈ tree.body.statements, s.isFlatAssignment = true := by
          rw [hbody]
          simpa [Expr.isFlatAssignment] using hflat
        have hstatement : (Expr.assign (.var target) pos value).IsStatement := by
          apply hread
          simp [hbody]
        refine ⟨tree, _, rfl, hbody, hflat, ?_,
          long_expressions_fit.1 target pos value hstatement hflat mixedStart rfl,
          long_expressions_fit.2 mixedText tree htree hall mixedStart rfl⟩
        split at hblock
        · next d hd => exact ⟨d, hd⟩
        · cases hblock
      · cases hmixes

end Tern
