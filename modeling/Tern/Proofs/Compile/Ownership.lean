import Tern.Proofs.Compile.Run
import Tern.Proofs.Emit.Ownership

/-!
# Ownership of registers by expressions

An expression takes over exactly the registers that its value holds and leaves all others as
they were, whatever was in use before.  A statement leaves no register behind.
-/

namespace Tern

/-- From `c` to `d` the registers `made` are taken over; the scopes and the open frames stay as
they are. -/
structure Compilation.Takes (c d : Compilation) (made : List Register) : Prop where
  scopes : d.scopes = c.scopes
  transfer : c.assembly.Transfer [] d.assembly made

namespace Compilation.Takes

variable {c d e : Compilation} {made more : List Register}

theorem ofLike (h : c.Like d) : c.Takes d [] :=
  ⟨h.scopes, by rw [h.assembly]; exact .nothing⟩

theorem seq (h : c.Takes d made) (h' : d.Takes e more) : c.Takes e (made ++ more) :=
  ⟨h'.scopes.trans h.scopes, h.transfer.seq h'.transfer⟩

theorem like (h : c.Takes d made) (h' : d.Like e) : c.Takes e made := by
  have hboth := h.seq (ofLike h')
  rwa [List.append_nil] at hboth

theorem after (h : c.Like d) (h' : d.Takes e made) : c.Takes e made := (ofLike h).seq h'

theorem emit (h : c.Takes d made) {b : Assembly} (hb : d.assembly.Transfer made b more) :
    c.Takes { d with assembly := b } more :=
  ⟨h.scopes, h.transfer.trans hb⟩

theorem owns (h : c.Takes d made) : d.assembly.Owns made := h.transfer.owns

end Compilation.Takes

/-- From `c` to `d` the item `i` is computed: it takes over its registers, its address needs no
others, and a constant costs no code. -/
structure Compilation.Computes (c d : Compilation) (i : Item) : Prop where
  takes : c.Takes d i.held
  closed : i.Closed
  const : ∀ t n, i = .value (.const t n) → d.assembly = c.assembly

namespace Compilation.Computes

variable {c d e : Compilation} {i : Item}

theorem like (h : c.Computes d i) (h' : d.Like e) : c.Computes e i :=
  ⟨h.takes.like h', h.closed, fun t n hi => h'.assembly.trans (h.const t n hi)⟩

theorem after (h : c.Like d) (h' : d.Computes e i) : c.Computes e i :=
  ⟨.after h h'.takes, h'.closed, fun t n hi => (h'.const t n hi).trans h.assembly⟩

theorem ofConst {t : Ty} {n : Int} (h : c.Like d) : c.Computes d (.value (.const t n)) :=
  ⟨.ofLike h, trivial, fun _ _ _ => h.assembly⟩

theorem ofTransfer {used : List Register} {b : Assembly} {v : Value} (h : c.Takes d used)
    (hb : d.assembly.Transfer used b v.held) (hclosed : v.Closed) (hconst : v.isConst = false) :
    c.Computes { d with assembly := b } (.value v) := by
  refine ⟨h.emit hb, hclosed, fun t n hi => ?_⟩
  cases hi
  cases hconst

end Compilation.Computes

namespace Compile

variable {c d e f : Compilation} {pos : Position} {v : Value}

/-! ## Operations on values -/

theorem variableNamed_computes {id : Ident} (h : variableNamed id c = .ok v d) :
    c.Computes d (.value v) := by
  obtain ⟨rfl, x, -, hv⟩ := variableNamed_ok h
  obtain ⟨hheld, hclosed⟩ := Emit.variableValue_closed hv
  have htakes : d.Takes d v.held := by
    rw [hheld]
    exact .ofLike (.refl d)
  exact ⟨htakes, hclosed, fun _ _ _ => rfl⟩

theorem reference_computes {i : Item} (hi : c.Computes d i)
    (h : reference pos i d = .ok v e) : c.Computes e (.value v) := by
  obtain ⟨-, b, hb, rfl⟩ := reference_ok h
  obtain ⟨t, m, hs, r, rfl, -, rfl, -⟩ := Emit.reference_ok hb
  exact .ofTransfer hi.takes (Emit.reference_transfer hb hi.takes.owns) trivial rfl

theorem negate_computes {i : Item} (hi : c.Computes d i) (h : negate pos i d = .ok v e) :
    c.Computes e (.value v) := by
  obtain ⟨u, rfl, -, ⟨t, n, rfl, rfl, rfl⟩ | ⟨-, b, hb, rfl⟩⟩ := negate_ok h
  · exact ⟨hi.takes, trivial, fun _ _ _ => hi.const t n rfl⟩
  · have htransfer := Emit.negate_transfer hb hi.takes.owns
    obtain ⟨_, r, _, _, _, _, _, _, _, rfl, _⟩ := Emit.negate_ok hb
    exact .ofTransfer hi.takes htransfer trivial rfl

theorem convert_isConst {u : Value} {t : Ty} {a b : Assembly} (hu : u.isConst = false)
    (h : Emit.convert u t a = .ok v b) : v.isConst = false := by
  rcases Emit.convert_ok h with ⟨-, rfl, -⟩ | ⟨-, h⟩
  · cases u with
    | const => cases hu
    | reg | mem => rfl
  · rcases Emit.resize_ok h with ⟨_, _, -, rfl, -⟩ | ⟨_, _, _, _, _, -, rfl, -⟩ <;> rfl

theorem cast_computes {u : Value} {t : Ty} (hu : c.Computes d (.value u))
    (h : cast pos u t d = .ok v e) : c.Computes e (.value v) := by
  obtain ⟨-, -, ⟨s, n, rfl, rfl, rfl⟩ | ⟨hconst, b, hb, rfl⟩⟩ := cast_ok h
  · exact ⟨hu.takes, trivial, fun _ _ _ => hu.const s n rfl⟩
  · exact .ofTransfer hu.takes (Emit.convert_transfer hb hu.takes.owns)
      (Emit.convert_closed hb hu.closed) (convert_isConst hconst hb)

theorem binary_computes {op : BinaryOp} {l r : Value} (hl : c.Computes d (.value l))
    (hr : d.Computes e (.value r)) (h : binary op pos l r e = .ok v f) :
    c.Computes f (.value v) := by
  have hboth := hl.takes.seq hr.takes
  obtain ⟨-, ⟨lt, l, rt, r, t, n, rfl, rfl, -, rfl, rfl⟩ | ⟨-, b, hb, rfl⟩⟩ := binary_ok h
  · exact ⟨hboth, trivial, fun _ _ _ => (hr.const rt r rfl).trans (hl.const lt l rfl)⟩
  · have htransfer := Emit.operate_transfer hb hboth.owns
    obtain ⟨t, dst, rfl⟩ := Emit.operate_eq_reg hb
    exact .ofTransfer hboth htransfer trivial rfl

theorem assign_computes {target source : Value} (ht : c.Computes d (.value target))
    (hs : d.Computes e (.value source)) (h : assign pos target source e = .ok v f) :
    c.Computes f (.value v) := by
  have hboth := ht.takes.seq hs.takes
  obtain ⟨-, b, hb, rfl⟩ := assign_ok h
  have htransfer := Emit.assignment_transfer hb hboth.owns
  obtain ⟨t, m, hs, _, _, _, htarget, -, rfl, -⟩ := Emit.assignment_ok hb
  cases htarget
  exact .ofTransfer hboth htransfer ht.closed rfl

theorem element_computes {array index : Value} {b : Assembly}
    (ha : c.Computes d (.value array)) (hi : d.Computes e (.value index))
    (h : Emit.element (.value array) (.value index) e.assembly = .ok v b) :
    c.Computes { e with assembly := b } (.value v) := by
  have hboth := ha.takes.seq hi.takes
  have htransfer := Emit.element_transfer h hboth.owns
  obtain ⟨hclosed, _, _, t, m, hs, -, -, -, rfl⟩ := Emit.element_eq_mem h
  exact .ofTransfer hboth htransfer hclosed rfl

theorem call_transfer {id : Ident} {p : Procedure} {args : List Value} {i : Item}
    (hargs : c.Takes d (args.flatMap Value.held)) (h : call id p args d = .ok i e) :
    d.assembly.Transfer (args.flatMap Value.held) e.assembly i.held := by
  obtain ⟨-, b, hb, rfl⟩ := call_ok h
  have hheld : (args.map Item.value).flatMap Item.held = args.flatMap Value.held := by
    rw [List.flatMap_map]
    rfl
  rw [← hheld] at hargs ⊢
  exact Emit.call_transfer hb hargs.owns

theorem call_computes {id : Ident} {p : Procedure} {args : List Value} {i : Item}
    (hargs : c.Takes d (args.flatMap Value.held)) (h : call id p args d = .ok i e) :
    c.Computes e i := by
  have htransfer := call_transfer hargs h
  obtain ⟨-, b, hb, rfl⟩ := call_ok h
  have htakes := hargs.emit htransfer
  rcases Emit.call_eq_reg hb with rfl | ⟨t, r, -, rfl⟩
  · exact ⟨htakes, trivial, nofun⟩
  · exact ⟨htakes, trivial, nofun⟩

/-! ## Expressions -/

-- The four statements are proved together along the tree.  Each case chains what the parts
-- compute; steps that only count tokens are absorbed by `like` and `after`.
mutual

theorem item_computes {i : Item} : ∀ {tree : Expr} {c d : Compilation},
    item tree c = .ok i d → c.Computes d i
  | .missing _, _, _, h => (item_missing_ok h).elim
  | .integer .., _, _, h => by
      obtain ⟨c₁, _, hlike, hv, rfl⟩ := item_integer_ok h
      obtain ⟨_, -, -, rfl, rfl⟩ := integer_ok hv
      exact .ofConst hlike
  | .char .., _, _, h => by
      obtain ⟨_, -, rfl, hlike⟩ := item_char_ok h
      exact .ofConst hlike
  | .name _, _, _, h => by
      obtain ⟨c₁, hlike, ⟨p, -, hcall⟩ | ⟨v, hv, rfl⟩⟩ := item_name_ok h
      · exact .after hlike (call_computes (.ofLike (.refl c₁)) hcall)
      · exact .after hlike (variableNamed_computes hv)
  | .call .., _, _, h => by
      obtain ⟨p, c₁, vs, c₂, -, hlike, hargs, hcall⟩ := item_call_ok h
      exact .after hlike (call_computes (arguments_takes hargs) hcall)
  | .element _, _, _, h => by
      obtain ⟨v, hv, rfl⟩ := item_element_ok h
      exact place_computes hv
  | .assign .., _, _, h => by
      obtain ⟨t, c₁, c₂, v, c₃, r, ht, -, hlike, hv, hr, rfl⟩ := item_assign_ok h
      exact assign_computes (place_computes ht) (.after hlike (item_computes hv)) hr
  | .paren .., _, _, h => by
      obtain ⟨c₁, v, c₂, hlike, hv, hlike', rfl⟩ := item_paren_ok h
      exact .after hlike ((item_computes hv).like hlike')
  | .reference .., _, _, h => by
      obtain ⟨c₁, j, c₂, v, hlike, hj, hv, rfl⟩ := item_reference_ok h
      exact .after hlike (reference_computes (item_computes hj) hv)
  | .negate .., _, _, h => by
      obtain ⟨c₁, j, c₂, v, hlike, hj, hv, rfl⟩ := item_negate_ok h
      exact .after hlike (negate_computes (item_computes hj) hv)
  | .cast .., _, _, h => by
      obtain ⟨u, c₁, c₂, t, c₃, v, hu, hlike, ht, hv, rfl⟩ := item_cast_ok h
      exact cast_computes ((item_computes hu).like (hlike.trans (type_like ht))) hv
  | .binary .., _, _, h => by
      obtain ⟨l, c₁, c₂, r, c₃, v, hl, hlike, hr, hv, rfl⟩ := item_binary_ok h
      exact binary_computes (item_computes hl) (.after hlike (item_computes hr)) hv

theorem place_computes {v : Value} : ∀ {tree : Place} {c d : Compilation},
    place tree c = .ok v d → c.Computes d (.value v)
  | .var _, _, _, h => by
      obtain ⟨c₁, hlike, hv⟩ := place_var_ok h
      exact .after hlike (variableNamed_computes hv)
  | .element .., _, _, h => by
      obtain ⟨a, c₁, c₂, x, c₃, c₄, b, ha, -, hlike, hx, -, hlike', hb, rfl⟩ := place_element_ok h
      have hindex := (item_computes hx).like hlike'
      exact element_computes (place_computes ha) (.after hlike hindex) hb

theorem arguments_takes {vs : List Value} : ∀ {tree : Args} {c d : Compilation},
    arguments tree c = .ok vs d → c.Takes d (vs.flatMap Value.held)
  | .close _, _, _, h => by
      obtain ⟨rfl, hlike⟩ := arguments_close_ok h
      exact .ofLike hlike
  | .cons .., _, _, h => by
      obtain ⟨v, c₁, c₂, vs, hv, hlike, hvs, rfl⟩ := arguments_cons_ok h
      exact (item_computes hv).takes.seq (.after hlike (arguments_takes hvs))

theorem type_like {t : Ty} : ∀ {tree : TypeExpr} {c d : Compilation},
    type tree c = .ok t d → c.Like d
  | .missing _, _, _, h => (type_missing_ok h).elim
  | .named _, _, _, h => (type_named_ok h).2
  | .pointer _, _, _, h => by
      obtain ⟨s, c₁, hs, hlike, -⟩ := type_pointer_ok h
      exact (type_like hs).trans hlike
  | .array .., _, _, h => by
      obtain ⟨s, c₁, c₂, u, k, c₃, hs, hlike, hk, -, -, -, hlike', -⟩ := type_array_ok h
      have hcount := item_computes hk
      have hsame : c₂.Like c₃ := ⟨hcount.takes.scopes, hcount.const u k rfl⟩
      exact (type_like hs).trans (hlike.trans (hsame.trans hlike'))
  | .stopped .., _, _, h => (type_stopped_ok h).elim

end

/-! ## Statements -/

/-- Once its item is discarded, a statement leaves in use what was in use before it. -/
theorem statement_takes {i : Item} {tree : Expr} (h : statement tree c = .ok i d) :
    c.Takes { d with assembly := d.assembly.release i.held } [] := by
  have htakes := (item_computes (statement_ok h)).takes
  have hown : d.assembly.Owns ([] ++ i.held) := htakes.owns
  exact htakes.emit (Assembly.Transfer.release hown)

theorem statements_take {u : Unit} {trees : List Expr} (h : statements trees c = .ok u d) :
    c.Takes d [] := by
  induction trees generalizing c with
  | nil =>
      obtain ⟨-, rfl⟩ := pure_eq_ok.1 h
      exact .ofLike (.refl c)
  | cons tree trees ih =>
      obtain ⟨i, c₁, hi, -, hrest⟩ := statements_cons_ok h
      exact (statement_takes hi).seq (ih hrest)

end Compile

/-! ## The discipline as a whole -/

/-- A single operation of the generator: from `a` to `b` it consumes the items `args` and
yields the items `results`. -/
inductive Emit.Operates : List Item → Assembly → List Item → Assembly → Prop where
  | reference {i v a b} : reference i a = .ok v b → Operates [i] a [.value v] b
  | negate {i v a b} : negate i a = .ok v b → Operates [i] a [.value v] b
  | balance {lhs rhs l r a b} : balance lhs rhs a = .ok (l, r) b →
      Operates [.value lhs, .value rhs] a [.value l, .value r] b
  | operation {op lhs rhs v a b} : operation op lhs rhs a = .ok v b →
      Operates [.value lhs, .value rhs] a [.value v] b
  | convert {u t v a b} : convert u t a = .ok v b → Operates [.value u] a [.value v] b
  | element {array index v a b} : element array index a = .ok v b →
      Operates [array, index] a [.value v] b
  | assignment {target source v a b} : assignment target source a = .ok v b →
      Operates [target, source] a [.value v] b
  | call {p args i a b} : call p args a = .ok i b → Operates args a [i] b

namespace Emit.Operates

variable {args results : List Item} {a b : Assembly}

theorem transfer (h : Operates args a results b) (hown : a.Owns (args.flatMap Item.held)) :
    a.Transfer (args.flatMap Item.held) b (results.flatMap Item.held) := by
  cases h with
  | reference h =>
      obtain ⟨t, m, hs, _, rfl, -⟩ := reference_ok h
      simpa [Item.held] using reference_transfer h (by simpa [Item.held] using hown)
  | negate h =>
      obtain ⟨u, _, _, _, rfl, -⟩ := negate_ok h
      simpa [Item.held] using negate_transfer h (by simpa [Item.held] using hown)
  | balance h => simpa [Item.held] using balance_transfer h (by simpa [Item.held] using hown)
  | operation h => simpa [Item.held] using operation_transfer h (by simpa [Item.held] using hown)
  | convert h => simpa [Item.held] using convert_transfer h (by simpa [Item.held] using hown)
  | element h =>
      obtain ⟨-, x, y, _, _, _, rfl, rfl, -⟩ := element_eq_mem h
      simpa [Item.held] using element_transfer h (by simpa [Item.held] using hown)
  | assignment h =>
      obtain ⟨t, m, hs, x, _, _, rfl, rfl, -⟩ := assignment_ok h
      simpa [Item.held] using assignment_transfer h (by simpa [Item.held] using hown)
  | call h => simpa using call_transfer h hown

theorem closed (h : Operates args a results b) (hargs : ∀ i ∈ args, i.Closed) :
    ∀ i ∈ results, i.Closed := by
  cases h with
  | reference h =>
      obtain ⟨t, m, hs, r, -, -, rfl, -⟩ := reference_ok h
      simp [Item.Closed, Value.Closed]
  | negate h =>
      obtain ⟨u, r, _, _, -, -, -, -, -, rfl, -⟩ := negate_ok h
      simp [Item.Closed, Value.Closed]
  | balance h =>
      simp only [List.mem_cons, List.not_mem_nil, or_false, forall_eq_or_imp, forall_eq] at hargs ⊢
      exact balance_closed h hargs.1 hargs.2
  | operation h =>
      obtain ⟨r, rfl⟩ := operation_eq_reg h
      simp [Item.Closed, Value.Closed]
  | convert h =>
      simp only [List.mem_singleton, forall_eq] at hargs ⊢
      exact convert_closed h hargs
  | element h =>
      simp only [List.mem_singleton, forall_eq]
      exact (element_eq_mem h).1
  | assignment h =>
      obtain ⟨t, m, hs, x, _, _, rfl, rfl, rfl, -⟩ := assignment_ok h
      simp only [List.mem_cons, List.not_mem_nil, or_false, forall_eq_or_imp, forall_eq] at hargs ⊢
      exact hargs.1
  | call h =>
      simp only [List.mem_singleton, forall_eq]
      rcases call_eq_reg h with rfl | ⟨t, r, -, rfl⟩ <;> trivial

end Emit.Operates

/-- Whatever is in use before it, an expression adds the registers that its value holds, which
come from the pool, were free and suffice for its address.  Every single operation turns the
registers of its operands into those of its results.  Statements and blocks leave in use what
they found in use. -/
theorem register_ownership :
    (∀ (minPrec : Nat) (s s' : Session) (v : Value), Session.expr minPrec s = .ok v s' →
      v.held.Nodup ∧
      (∀ r ∈ v.held, r ∈ Register.pool ∧ r ∉ s.compilation.assembly.busy) ∧
      (∀ r, r ∈ s'.compilation.assembly.busy ↔
        r ∈ s.compilation.assembly.busy ∨ r ∈ v.held) ∧
      v.Closed) ∧
    (∀ (args results : List Item) (a b : Assembly), Emit.Operates args a results b →
      a.Owns (args.flatMap Item.held) →
      a.Transfer (args.flatMap Item.held) b (results.flatMap Item.held) ∧
      ((∀ i ∈ args, i.Closed) → ∀ i ∈ results, i.Closed)) ∧
    (∀ (tree : Expr) (c d : Compilation) (i : Item), Compile.statement tree c = .ok i d →
      ∀ r, r ∈ (d.assembly.release i.held).busy ↔ r ∈ c.assembly.busy) ∧
    (∀ (s s' : Session), Session.block s = .ok () s' →
      ∀ r, r ∈ s'.compilation.assembly.busy ↔ r ∈ s.compilation.assembly.busy) := by
  refine ⟨fun minPrec s s' v h => ?_, fun args results a b h hown => ?_,
    fun tree c d i h r => ?_, fun s s' h r => ?_⟩
  · have hcomputes := Compile.item_computes (Compile.value_ok (Session.phrase_ok h))
    have htransfer := hcomputes.takes.transfer
    refine ⟨htransfer.nodup, fun r hr => ⟨?_, fun hbusy => ?_⟩, fun r => ?_, hcomputes.closed⟩
    · exact (htransfer.pool r hr).resolve_right List.not_mem_nil
    · exact List.not_mem_nil (htransfer.apart r hr hbusy)
    · rw [htransfer.busy]
      simp [Session.fresh, Item.held]
  · exact ⟨h.transfer hown, h.closed⟩
  · have hbusy := (Compile.statement_takes h).transfer.busy r
    simpa using hbusy
  · obtain ⟨c, hstatements, hlike, -⟩ := Compile.block_ok (Session.phrase_ok h)
    have hbusy := ((Compile.statements_take hstatements).like hlike).transfer.busy r
    simpa [Session.fresh] using hbusy

/-- A session in front of `x*x`, with the register `r8` in use. -/
def squareSession : Session where
  cursor :=
    { current := ⟨.identifier "x", .start⟩
      stream :=
        { results := [.ok ⟨.symbol .star, .start⟩, .ok ⟨.identifier "x", .start⟩]
          ending := .eof .start } }
  compilation :=
    { scopes := .ofGlobals
        [.var { name := "x", type := .builtin .int, storage := some (.global "x" 4) }]
      assembly := { busy := [.r8] } }

theorem register_ownership_square :
    ∃ s', Session.expr 0 squareSession = .ok (.reg (.builtin .int) .r9) s' ∧
      ∀ r, r ∈ s'.compilation.assembly.busy ↔ r ∈ [Register.r8] ∨ r ∈ [Register.r9] :=
  ⟨_, rfl, (register_ownership.1 0 squareSession _ _ rfl).2.2.1⟩

end Tern
