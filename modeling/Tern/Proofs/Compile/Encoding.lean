import Tern.Proofs.Compile.Stages
import Tern.Proofs.Emit.Frame

/-!
# Every instruction is encodable

Types are never larger than a displacement reaches, and neither are frames.  So whatever the
program, the instructions written for it are of the known forms, and all their addresses are in
reach.  The labels in them are those of the newline and of the variables in scope, and none of the
instructions that are written for a statement changes the frame.
-/

namespace Tern

open Address (InReach)

/-- No array in the type is too large. -/
def Ty.Bounded : Ty → Prop
  | .builtin _ => True
  | .pointer base => base.Bounded
  | .array base n => base.Bounded ∧ n * base.size ≤ sizeLimit

namespace Ty.Bounded

variable {t u : Ty}

theorem size_lt (h : t.Bounded) : t.size < 2 ^ 31 := by
  cases t with
  | builtin b => cases b <;> decide
  | pointer base => exact (by decide : 8 < 2 ^ 31)
  | array base n => exact Nat.lt_of_le_of_lt h.2 (by decide)

theorem element (h : t.Bounded) (hu : t.element? = some u) : u.Bounded := by
  cases t with
  | builtin b => cases hu
  | pointer base =>
      cases hu
      exact h
  | array base n =>
      cases hu
      exact h.1

theorem wider (h : t.Bounded) (hu : u.Bounded) : (t.wider u).Bounded := by
  unfold Ty.wider
  split
  · exact hu
  · exact h

end Ty.Bounded

def Entity.Bounded : Entity → Prop
  | .var v => v.type.Bounded ∧
      ∀ offset n, v.storage = some (.frame offset n) → 0 ≤ offset ∧ offset ≤ Ty.sizeLimit
  | .type _ t => t.Bounded
  | .procedure _ => True

def Scopes.Bounded (s : Scopes) : Prop :=
  ∀ scope ∈ s.inner ++ [s.globals], ∀ e ∈ scope, e.Bounded

namespace Scopes.Bounded

variable {s : Scopes}

theorem lookup (h : s.Bounded) {name : String} {e : Entity} (he : s.lookup name = some e) :
    e.Bounded := by
  obtain ⟨scope, hscope, hmem⟩ := Scopes.lookup_mem he
  exact h scope hscope e hmem

theorem builtin : Scopes.builtin.Bounded := by
  intro scope hscope e he
  obtain rfl : scope = predefined.reverse := by
    simpa [Scopes.builtin, Scopes.ofGlobals] using hscope
  rw [List.mem_reverse] at he
  simp only [predefined, Builtin.all, List.map_cons, List.map_nil, List.cons_append,
    List.nil_append, List.mem_cons, List.not_mem_nil, or_false] at he
  rcases he with rfl | rfl | rfl | rfl | rfl | rfl <;> trivial

theorem push (h : s.Bounded) : s.push.Bounded := by
  intro scope hscope e he
  rcases List.mem_cons.1 hscope with rfl | hscope
  · cases he
  · exact h scope hscope e he

theorem adding (h : s.Bounded) {vs : List Variable} (hvs : ∀ v ∈ vs, (Entity.var v).Bounded) :
    (s.mapInnermost (·.adding vs)).Bounded := by
  have hadding : ∀ scope : Scope, (∀ e ∈ scope, e.Bounded) → ∀ e ∈ scope.adding vs, e.Bounded := by
    intro scope hscope e he
    rcases List.mem_append.1 he with he | he
    · obtain ⟨v, hv, rfl⟩ := List.mem_map.1 (List.mem_reverse.1 he)
      exact hvs v hv
    · exact hscope e he
  unfold Scopes.mapInnermost
  cases hs : s.inner with
  | nil =>
      intro scope hscope
      obtain rfl : scope = s.globals.adding vs := by simpa [hs] using hscope
      exact hadding _ (h s.globals (by simp))
  | cons inner outer =>
      intro scope hscope
      rcases List.mem_cons.1 hscope with rfl | hscope
      · exact hadding _ (h inner (by simp [hs]))
      · exact h scope (by rw [hs]; exact List.mem_cons_of_mem _ hscope)

end Scopes.Bounded

/-- The address is in reach, and a label in it has the property `L`. -/
structure Address.Reaches (L : String → Prop) (m : Address) : Prop extends m.InReach where
  labelled : ∀ name, m.base = .label name → L name

theorem Address.Computed.reaches {L : String → Prop} {m : Address} (h : m.Computed) :
    m.Reaches L := ⟨h.toInReach, fun name hname => (h.base_ne name hname).elim⟩

theorem Address.reaches_label {L : String → Prop} {name : String} (h : L name) :
    Address.Reaches L { base := .label name } where
  displacement k hk := by
    cases hk
    decide
  scale := by simp
  registers := by simp [Address.registers]
  labelled := by
    rintro _ ⟨⟩
    exact h

/-- What is written for a statement: an instruction of a known form that keeps the frame, and
whose addresses are in reach and have labels with the property `L`. -/
def Instr.OfStatement (L : String → Prop) (i : Instr) : Prop :=
  i.Within (Address.Reaches L) True ∧ i.KeepsFrame

/-- What is needed to compile a statement: besides the names of the language, variables that are
not too large, with labels that have the property `L`. -/
structure Scopes.Admits (L : String → Prop) (s : Scopes) : Prop where
  sound : s.Sound
  bounded : s.Bounded
  newline : L Emit.newlineLabel
  labels : ∀ name v label n, s.lookup name = some (.var v) → v.storage = some (.global label n) →
    L label

/-- From `c` to `d` the item `i` is computed by instructions that a statement may have; it can be
used in further ones. -/
structure Compilation.Encodes (L : String → Prop) (c d : Compilation) (i : Item) : Prop
    extends c.Computes d i where
  writes : c.assembly.Writes (Instr.OfStatement L) d.assembly
  within : i.Within (Address.Reaches L)
  bounded : ∀ v, i = .value v → v.type.Bounded

namespace Compilation.Encodes

variable {L : String → Prop} {c d e : Compilation} {i : Item} {v : Value}

theorem like (h : c.Encodes L d i) (h' : d.Like e) : c.Encodes L e i :=
  ⟨h.toComputes.like h', by rw [h'.assembly]; exact h.writes, h.within, h.bounded⟩

theorem after (h : c.Like d) (h' : d.Encodes L e i) : c.Encodes L e i :=
  ⟨.after h h'.toComputes, by rw [← h.assembly]; exact h'.writes, h'.within, h'.bounded⟩

theorem ofConst {t : Ty} {n : Int} (h : c.Like d) (ht : t.Bounded) :
    c.Encodes L d (.value (.const t n)) :=
  ⟨.ofConst h, by rw [h.assembly]; exact .refl, trivial, by rintro _ ⟨⟩; exact ht⟩

theorem type (h : c.Encodes L d (.value v)) : v.type.Bounded := h.bounded v rfl

theorem pool (h : c.Encodes L d i) : ∀ r ∈ i.held, r ∈ Register.pool :=
  fun r hr => (h.takes.transfer.pool r hr).resolve_right List.not_mem_nil

theorem held (h : c.Encodes L d i) : ∀ r ∈ i.held, ¬ r.OfFrame :=
  fun r hr => Register.not_ofFrame_of_mem_pool (h.pool r hr)

end Compilation.Encodes

namespace Compile

variable {L : String → Prop} {c d e f : Compilation} {pos : Position} {v : Value}

/-! ## Operations on values -/

theorem variableNamed_encodes {id : Ident} (h : variableNamed id c = .ok v d)
    (ha : c.scopes.Admits L) : c.Encodes L d (.value v) := by
  have hcomputes := variableNamed_computes h
  obtain ⟨rfl, x, hx, hv⟩ := variableNamed_ok h
  obtain ⟨ht, hstorage⟩ := ha.bounded.lookup hx
  obtain ⟨-, ⟨label, n, hplace, rfl⟩ | ⟨offset, n, hplace, rfl⟩⟩ := Emit.variableValue_ok hv
  · exact ⟨hcomputes, .refl, Address.reaches_label (ha.labels _ x label n hx hplace),
      by rintro _ ⟨⟩; exact ht⟩
  · obtain ⟨hlow, hhigh⟩ := hstorage offset n hplace
    refine ⟨hcomputes, .refl, ⟨⟨fun k hk => ?_, by simp, by simp [Address.registers]⟩, nofun⟩, ?_⟩
    · cases hk
      unfold Ty.sizeLimit at hhigh
      omega
    · rintro _ ⟨⟩
      exact ht

theorem reference_encodes {i : Item} (hi : c.Encodes L d i) (h : reference pos i d = .ok v e) :
    c.Encodes L e (.value v) := by
  have hcomputes := reference_computes hi.toComputes h
  obtain ⟨-, b, hb, rfl⟩ := reference_ok h
  have hwrites := (Emit.reference_writes (D := True) hb hi.within).and
    (Emit.keepsFrame_of_spares (Emit.reference_spares hb (Assembly.guards_ofFrame _)))
  obtain ⟨t, m, hs, r, rfl, -, rfl, -⟩ := Emit.reference_ok hb
  exact ⟨hcomputes, hi.writes.trans hwrites, trivial, by rintro _ ⟨⟩; exact hi.type⟩

theorem negate_encodes {i : Item} (hi : c.Encodes L d i) (h : negate pos i d = .ok v e) :
    c.Encodes L e (.value v) := by
  have hcomputes := negate_computes hi.toComputes h
  obtain ⟨u, rfl, -, ⟨t, n, rfl, rfl, rfl⟩ | ⟨-, b, hb, rfl⟩⟩ := negate_ok h
  · exact ⟨hcomputes, hi.writes, trivial, by rintro _ ⟨⟩; exact hi.type⟩
  · have hwrites := (Emit.negate_writes (D := True) hb hi.within).and
      (Emit.keepsFrame_of_spares (Emit.negate_spares hb (Assembly.guards_ofFrame _)))
    obtain ⟨_, r, _, _, heq, -, -, -, -, rfl, -⟩ := Emit.negate_ok hb
    cases heq
    exact ⟨hcomputes, hi.writes.trans hwrites, trivial, by rintro _ ⟨⟩; exact hi.type⟩

theorem cast_encodes {u : Value} {t : Ty} (hu : c.Encodes L d (.value u)) (ht : t.Bounded)
    (h : cast pos u t d = .ok v e) : c.Encodes L e (.value v) := by
  have hcomputes := cast_computes hu.toComputes h
  obtain ⟨-, harray, ⟨s, n, rfl, rfl, rfl⟩ | ⟨-, b, hb, rfl⟩⟩ := cast_ok h
  · exact ⟨hcomputes, hu.writes, trivial, by rintro _ ⟨⟩; exact ht⟩
  · obtain ⟨w, hw⟩ := Ty.exists_width harray
    obtain ⟨hwithin, hv⟩ := Emit.convert_writes (D := True) hb hw hu.within
    have hwrites := hwithin.and
      (Emit.keepsFrame_of_spares (Emit.convert_spares hb (Assembly.guards_ofFrame _) hu.held))
    exact ⟨hcomputes, hu.writes.trans hwrites, hv,
      by rintro _ ⟨⟩; exact Emit.convert_type hb ▸ ht⟩

theorem operate_writes {P : Address → Prop} {op : BinaryOp} {l r : Value} {a b : Assembly}
    (h : operate op l r a = .ok v b) (htypes : l.type.admitsWith op r.type = true)
    (hl : l.Within P) (hr : r.Within P) :
    a.Writes (Instr.Within P True) b ∧ v.Within P ∧ v.type = l.type.wider r.type := by
  unfold operate at h
  split at h
  · next heq =>
    obtain ⟨dst, rfl⟩ := Emit.operation_eq_reg h
    refine ⟨Emit.operation_writes h hl hr fun _ => trivial, trivial, ?_⟩
    rw [← heq, Ty.wider, if_neg (Nat.lt_irrefl _)]
    rfl
  · simp only [bind_eq_ok, Prod.exists] at h
    obtain ⟨l', r', c, hbalance, h⟩ := h
    obtain ⟨⟨w, hw⟩, ⟨w', hw'⟩⟩ := Emit.admitsWith_widths htypes
    obtain ⟨hwrites, hl, hr⟩ := Emit.balance_writes (D := True) hbalance hw hw' hl hr
    obtain ⟨dst, rfl⟩ := Emit.operation_eq_reg h
    exact ⟨hwrites.trans (Emit.operation_writes h hl hr fun _ => trivial), trivial,
      (Emit.balance_types hbalance).1⟩

theorem fold_type {op : BinaryOp} {lt rt t : Ty} {l r n : Int}
    (h : Const.fold op lt l rt r = .ok (t, n)) : t = lt.wider rt := by
  simp only [Const.fold] at h
  split at h
  · cases h
    rfl
  · cases h

theorem binary_encodes {op : BinaryOp} {l r : Value} (hl : c.Encodes L d (.value l))
    (hr : d.Encodes L e (.value r)) (h : binary op pos l r e = .ok v f) :
    c.Encodes L f (.value v) := by
  have hcomputes := binary_computes hl.toComputes hr.toComputes h
  have hboth := hl.writes.trans hr.writes
  have ht := hl.type.wider hr.type
  obtain ⟨htypes, ⟨lt, l, rt, r, t, n, rfl, rfl, hfold, rfl, rfl⟩ | ⟨-, b, hb, rfl⟩⟩ :=
    binary_ok h
  · exact ⟨hcomputes, hboth, trivial, by rintro _ ⟨⟩; exact fold_type hfold ▸ ht⟩
  · obtain ⟨hwithin, hv, htype⟩ := operate_writes hb htypes hl.within hr.within
    have hwrites := hwithin.and (Emit.operate_keepsFrame hb (hl.takes.seq hr.takes).owns
      (List.forall_mem_append.2 ⟨hl.pool, hr.pool⟩))
    exact ⟨hcomputes, hboth.trans hwrites, hv, by rintro _ ⟨⟩; exact htype ▸ ht⟩

theorem assign_encodes {target source : Value} (ht : c.Encodes L d (.value target))
    (hs : d.Encodes L e (.value source)) (h : assign pos target source e = .ok v f) :
    c.Encodes L f (.value v) := by
  have hcomputes := assign_computes ht.toComputes hs.toComputes h
  obtain ⟨htypes, b, hb, rfl⟩ := assign_ok h
  obtain ⟨hwithin, hv⟩ := Emit.assignment_writes (D := True) hb
    (by rintro _ _ ⟨⟩ ⟨⟩; exact htypes) ht.within hs.within
  have hwrites := hwithin.and (Emit.assignment_keepsFrame hb)
  obtain ⟨t, m, hs', _, _, _, htarget, -, rfl, -⟩ := Emit.assignment_ok hb
  cases htarget
  exact ⟨hcomputes, (ht.writes.trans hs.writes).trans hwrites, hv,
    by rintro _ ⟨⟩; exact ht.type⟩

theorem element_encodes {array index : Value} {b : Assembly}
    (ha : c.Encodes L d (.value array)) (hi : d.Encodes L e (.value index))
    (h : Emit.element (.value array) (.value index) e.assembly = .ok v b) :
    c.Encodes L { e with assembly := b } (.value v) := by
  have hcomputes := element_computes ha.toComputes hi.toComputes h
  obtain ⟨hwithin, hv⟩ := Emit.element_writes (D := True) (fun _ h => h.reaches) h ha.within
    hi.within (List.forall_mem_append.2 ⟨ha.pool, hi.pool⟩)
    (by rintro _ t ⟨⟩ ht; exact (ha.type.element ht).size_lt)
  have hwrites := hwithin.and (Emit.keepsFrame_of_spares
    (Emit.element_spares h (Assembly.guards_ofFrame _) ha.held hi.held))
  obtain ⟨-, x, y, t, m, hs, heq, -, ht, rfl⟩ := Emit.element_eq_mem h
  cases heq
  exact ⟨hcomputes, (ha.writes.trans hi.writes).trans hwrites, hv,
    by rintro _ ⟨⟩; exact ha.type.element ht⟩

theorem call_encodes {id : Ident} {p : Procedure} {args : List Value} {i : Item}
    (htakes : c.Takes d (args.flatMap Value.held))
    (hargs : c.assembly.Writes (Instr.OfStatement L) d.assembly)
    (hwithin : ∀ v ∈ args, v.Within (Address.Reaches L)) (hp : Emit.IsPredefined p)
    (hnewline : L Emit.newlineLabel) (h : call id p args d = .ok i e) : c.Encodes L e i := by
  have hcomputes := call_computes htakes h
  obtain ⟨htypes, b, hb, rfl⟩ := call_ok h
  obtain ⟨hcode, hi⟩ := Emit.call_writes (D := True) hb hp htypes hwithin
    (Address.reaches_label hnewline)
  refine ⟨hcomputes, hargs.trans (hcode.and (Emit.call_keepsFrame hb)), hi, ?_⟩
  rintro v rfl
  rcases Emit.call_eq_reg hb with heq | ⟨t, r, ht, heq⟩
  · cases heq
  · cases heq
    rcases Emit.isPredefined_iff.1 hp with rfl | rfl
    · cases ht
    · cases ht
      trivial

/-! ## Expressions -/

theorem type_bounded {t : Ty} : ∀ {tree : TypeExpr} {c d : Compilation},
    type tree c = .ok t d → c.scopes.Bounded → t.Bounded
  | .missing _, _, _, h, _ => (type_missing_ok h).elim
  | .named _, _, _, h, hb => by
      obtain ⟨⟨name, hname⟩, -⟩ := type_named_ok h
      exact hb.lookup hname
  | .pointer _, _, _, h, hb => by
      obtain ⟨s, c₁, hbase, -, rfl⟩ := type_pointer_ok h
      exact (type_bounded hbase hb : s.Bounded)
  | .array .., _, _, h, hb => by
      obtain ⟨s, c₁, c₂, u, k, c₃, hbase, -, -, -, -, hsize, -, rfl⟩ := type_array_ok h
      exact ⟨type_bounded hbase hb, hsize⟩
  | .stopped .., _, _, h, _ => (type_stopped_ok h).elim

-- The three statements are proved together along the tree.  Only the scopes matter for what
-- comes later, and no expression changes them.
mutual

theorem item_encodes {i : Item} : ∀ {tree : Expr} {c d : Compilation},
    item tree c = .ok i d → c.scopes.Admits L → c.Encodes L d i
  | .missing _, _, _, h, _ => (item_missing_ok h).elim
  | .integer .., _, _, h, hs => by
      obtain ⟨c₁, _, hlike, hv, rfl⟩ := item_integer_ok h
      obtain ⟨t, ht, -, rfl, rfl⟩ := integer_ok hv
      rw [hlike.scopes, hs.sound.predefinedType] at ht
      cases ht
      exact .ofConst hlike trivial
  | .char .., _, _, h, hs => by
      obtain ⟨t, ht, rfl, hlike⟩ := item_char_ok h
      rw [hs.sound.predefinedType] at ht
      cases ht
      exact .ofConst hlike trivial
  | .name _, _, _, h, hs => by
      obtain ⟨c₁, hlike, ⟨p, hp, hcall⟩ | ⟨v, hv, rfl⟩⟩ := item_name_ok h
      · exact .after hlike (call_encodes (.ofLike (.refl c₁)) .refl (by simp)
          (hs.sound.isPredefined hp) hs.newline hcall)
      · exact .after hlike (variableNamed_encodes hv (hlike.scopes ▸ hs))
  | .call .., _, _, h, hs => by
      obtain ⟨p, c₁, vs, c₂, hp, hlike, hargs, hcall⟩ := item_call_ok h
      obtain ⟨hwrites, hwithin⟩ := arguments_encode hargs (hlike.scopes ▸ hs)
      exact .after hlike (call_encodes (arguments_takes hargs) hwrites hwithin
        (hs.sound.isPredefined hp) hs.newline hcall)
  | .element _, _, _, h, hs => by
      obtain ⟨v, hv, rfl⟩ := item_element_ok h
      exact place_encodes hv hs
  | .assign .., c, _, h, hs => by
      obtain ⟨t, c₁, c₂, v, c₃, r, ht, -, hlike, hv, hr, rfl⟩ := item_assign_ok h
      have htarget := place_encodes ht hs
      have hscopes : c₂.scopes = c.scopes := hlike.scopes.trans htarget.takes.scopes
      exact assign_encodes htarget (.after hlike (item_encodes hv (hscopes ▸ hs))) hr
  | .paren .., _, _, h, hs => by
      obtain ⟨c₁, v, c₂, hlike, hv, hlike', rfl⟩ := item_paren_ok h
      exact .after hlike ((item_encodes hv (hlike.scopes ▸ hs)).like hlike')
  | .reference .., _, _, h, hs => by
      obtain ⟨c₁, j, c₂, v, hlike, hj, hv, rfl⟩ := item_reference_ok h
      exact .after hlike (reference_encodes (item_encodes hj (hlike.scopes ▸ hs)) hv)
  | .negate .., _, _, h, hs => by
      obtain ⟨c₁, j, c₂, v, hlike, hj, hv, rfl⟩ := item_negate_ok h
      exact .after hlike (negate_encodes (item_encodes hj (hlike.scopes ▸ hs)) hv)
  | .cast .., c, _, h, hs => by
      obtain ⟨u, c₁, c₂, t, c₃, v, hu, hlike, ht, hv, rfl⟩ := item_cast_ok h
      have hvalue := item_encodes hu hs
      have hscopes : c₂.scopes = c.scopes := hlike.scopes.trans hvalue.takes.scopes
      have hbounded := type_bounded ht (hscopes ▸ hs.bounded)
      exact cast_encodes (hvalue.like (hlike.trans (type_like ht))) hbounded hv
  | .binary .., c, _, h, hs => by
      obtain ⟨l, c₁, c₂, r, c₃, v, hl, hlike, hr, hv, rfl⟩ := item_binary_ok h
      have hleft := item_encodes hl hs
      have hscopes : c₂.scopes = c.scopes := hlike.scopes.trans hleft.takes.scopes
      exact binary_encodes hleft (.after hlike (item_encodes hr (hscopes ▸ hs))) hv

theorem place_encodes {v : Value} : ∀ {tree : Place} {c d : Compilation},
    place tree c = .ok v d → c.scopes.Admits L → c.Encodes L d (.value v)
  | .var _, _, _, h, hs => by
      obtain ⟨c₁, hlike, hv⟩ := place_var_ok h
      exact .after hlike (variableNamed_encodes hv (hlike.scopes ▸ hs))
  | .element .., c, _, h, hs => by
      obtain ⟨a, c₁, c₂, x, c₃, c₄, b, ha, -, hlike, hx, -, hlike', hb, rfl⟩ := place_element_ok h
      have harray := place_encodes ha hs
      have hscopes : c₂.scopes = c.scopes := hlike.scopes.trans harray.takes.scopes
      have hindex := (item_encodes hx (hscopes ▸ hs)).like hlike'
      exact element_encodes harray (.after hlike hindex) hb

theorem arguments_encode {vs : List Value} : ∀ {tree : Args} {c d : Compilation},
    arguments tree c = .ok vs d → c.scopes.Admits L →
    c.assembly.Writes (Instr.OfStatement L) d.assembly ∧
      ∀ v ∈ vs, v.Within (Address.Reaches L)
  | .close _, _, _, h, _ => by
      obtain ⟨rfl, hlike⟩ := arguments_close_ok h
      exact ⟨by rw [hlike.assembly]; exact .refl, by simp⟩
  | .cons .., c, _, h, hs => by
      obtain ⟨v, c₁, c₂, vs, hv, hlike, hvs, rfl⟩ := arguments_cons_ok h
      have hfirst := (item_encodes hv hs).like hlike
      have hscopes : c₂.scopes = c.scopes := hfirst.takes.scopes
      obtain ⟨hwrites, hwithin⟩ := arguments_encode hvs (hscopes ▸ hs)
      exact ⟨hfirst.writes.trans hwrites, List.forall_mem_cons.2 ⟨hfirst.within, hwithin⟩⟩

end

/-! ## Statements and programs -/

theorem statements_write {u : Unit} {trees : List Expr} (h : statements trees c = .ok u d)
    (hs : c.scopes.Admits L) : c.assembly.Writes (Instr.OfStatement L) d.assembly := by
  induction trees generalizing c with
  | nil =>
      obtain ⟨-, rfl⟩ := pure_eq_ok.1 h
      exact .refl
  | cons tree trees ih =>
      obtain ⟨i, c₁, hi, -, hrest⟩ := statements_cons_ok h
      have hfirst := item_encodes (statement_ok hi) hs
      have hscopes : c₁.scopes = c.scopes := hfirst.takes.scopes
      have hmore := ih hrest (by rwa [hscopes])
      exact hfirst.writes.release.trans hmore

theorem statements_encode {u : Unit} {trees : List Expr} (h : statements trees c = .ok u d)
    (hs : c.scopes.Sound) (hb : c.scopes.Bounded) :
    c.assembly.Writes (Instr.Within InReach True) d.assembly := by
  have hadmits : c.scopes.Admits (fun _ => True) := ⟨hs, hb, trivial, fun _ _ _ _ _ _ => trivial⟩
  exact (statements_write h hadmits).imp fun i hi => hi.1.imp fun _ hm => hm.toInReach

theorem Declares.bounded {s : Scopes} {ds : List Decl} {vs : List Variable}
    (h : Declares s ds vs) (hb : s.Bounded) : ∀ v ∈ vs, v.type.Bounded := by
  induction h with
  | nil => simp
  | @cons c c' d ds id t vs hid htype hnew hrest ih =>
      have ht : (d.variable id t).type.Bounded := type_bounded htype hb
      have hbounded : (Entity.var (d.variable id t)).Bounded := ⟨ht, nofun⟩
      have hnext : (c.scopes.mapInnermost (·.adding [d.variable id t])).Bounded :=
        hb.adding (List.forall_mem_singleton.2 hbounded)
      exact List.forall_mem_cons.2 ⟨ht, ih hnext⟩

theorem atLabel_bounded {vs : List Variable} (h : ∀ v ∈ vs, v.type.Bounded) :
    ∀ v ∈ vs.map atLabel, (Entity.var v).Bounded := by
  intro v hv
  obtain ⟨x, hx, rfl⟩ := List.mem_map.1 hv
  exact ⟨h x hx, nofun⟩

theorem inFrame_bounded {vs : List Variable} {total : Nat} (h : ∀ v ∈ vs, v.type.Bounded)
    (hsize : total + totalSize vs ≤ Ty.sizeLimit) :
    ∀ v ∈ inFrame total vs, (Entity.var v).Bounded := by
  induction vs generalizing total with
  | nil => simp [inFrame]
  | cons v vs ih =>
      rw [totalSize, List.map_cons, List.sum_cons] at hsize
      refine List.forall_mem_cons.2 ⟨⟨h v List.mem_cons_self, ?_⟩, ih ?_ ?_⟩
      · rintro offset n ⟨⟩
        omega
      · exact fun u hu => h u (List.mem_cons_of_mem v hu)
      · rw [totalSize]
        omega

theorem Stages.bounded {tree : Program} {gvs lvs : List Variable} {data : List Line}
    {lines : Array Line} (h : Stages tree gvs lvs data c d lines) : c.scopes.Bounded := by
  have hglobals : (Scopes.builtin.mapInnermost (·.adding (gvs.map atLabel))).push.Bounded :=
    (Scopes.Bounded.builtin.adding (atLabel_bounded (h.globals.bounded .builtin))).push
  rw [h.scopes]
  refine hglobals.adding (inFrame_bounded (h.locals.bounded hglobals) ?_)
  rw [Nat.zero_add]
  exact h.size

theorem frameCode_within {P : Address → Prop} {total : Nat} (h : total ≤ Ty.sizeLimit) :
    ∀ i ∈ frameCode total, i.Within P True := by
  unfold frameCode
  split
  · exact List.forall_mem_nil _
  · have hfits : Width.qword.Immediate total := by
      unfold Ty.sizeLimit at h
      constructor <;> simp only [Width.immediateBits] <;> omega
    simp only [List.forall_mem_cons]
    exact ⟨.plain .push rfl, .plain (.move (.reg .rsp)) rfl, .plain (.combine (.imm hfits)) rfl,
      List.forall_mem_nil _⟩

theorem leaveCode_within {P : Address → Prop} (total : Nat) :
    ∀ i ∈ leaveCode total, i.Within P True := by
  refine List.forall_mem_append.2 ⟨?_, ?_⟩
  · split
    · exact List.forall_mem_nil _
    · exact Emit.forall_pair (.plain (.move (.reg .rbp)) rfl) (.plain .pop rfl)
  · simp only [List.forall_mem_cons]
    exact ⟨.plain (.move (.imm ⟨by decide, by decide⟩)) rfl, .plain (.combine (.reg .rdi)) rfl,
      .plain .syscall rfl, List.forall_mem_nil _⟩

end Compile

theorem Instr.Within.encodable {i : Instr} (h : i.Within InReach True) : i.Encodable :=
  h.formed.encodable h.addresses

/-- Behind the entry label of a program that compiles there is nothing but instructions, and an
assembler can encode every one of them. -/
theorem instructions_encodable (text : List Char) (lines : Array Line)
    (h : compileLines text = .ok lines) :
    ∃ (head : List Line) (code : List Instr),
      lines.toList = head ++ .label entryLabel :: code.map Line.instr ∧
      (∀ l ∈ head, l ≠ .label entryLabel) ∧ ∀ i ∈ code, i.Encodable := by
  obtain ⟨tree, htree⟩ : ∃ tree, Program.ofText? text = .ok tree := by
    cases htree : Program.ofText? text with
    | error f =>
        rw [compileLines_eq, htree] at h
        cases h
    | ok tree => exact ⟨tree, rfl⟩
  obtain ⟨d, hprogram, rfl⟩ := compileLines_ok h htree
  obtain ⟨gvs, lvs, data, c, c', hstages⟩ := Compile.program_ok hprogram
  obtain ⟨code, hcode, hbody⟩ :=
    Compile.statements_encode hstages.body hstages.sound hstages.bounded
  refine ⟨data, Compile.frameCode (Compile.totalSize lvs) ++ code ++
    Compile.leaveCode (Compile.totalSize lvs), ?_, hstages.noEntry, fun i hi => ?_⟩
  · rw [hstages.left, hcode, hstages.entered]
    simp
  · refine Instr.Within.encodable ?_
    rcases List.mem_append.1 hi with hi | hi
    · rcases List.mem_append.1 hi with hi | hi
      · exact Compile.frameCode_within hstages.size i hi
      · exact hbody i hi
    · exact Compile.leaveCode_within _ i hi

/-- Rows of 24 bytes, which no address can scale by, and a number that needs a register. -/
def tableText : List Char :=
  "var t: Long[3][5] begin var i: Int t[i][2] := t[i][i] - 5000000000l end".toList

theorem instructions_encodable_table :
    ∃ lines, compileLines tableText = .ok lines ∧ .instr (.imul .r9 24) ∈ lines.toList ∧
      .instr (.mov (.reg .r8 .qword) (.imm 5000000000)) ∈ lines.toList ∧
      ∃ (head : List Line) (code : List Instr),
        lines.toList = head ++ .label entryLabel :: code.map Line.instr ∧
        (∀ l ∈ head, l ≠ .label entryLabel) ∧ ∀ i ∈ code, i.Encodable := by
  have hcompiles : (compileLines tableText).toOption.any (fun lines =>
      decide (.instr (.imul .r9 24) ∈ lines.toList ∧
        .instr (.mov (.reg .r8 .qword) (.imm 5000000000)) ∈ lines.toList)) = true := by
    decide +kernel
  cases hlines : compileLines tableText with
  | error f => simp [hlines, Except.toOption] at hcompiles
  | ok lines =>
      simp only [hlines, Except.toOption, Option.any_some, decide_eq_true_eq] at hcompiles
      exact ⟨lines, rfl, hcompiles.1, hcompiles.2, instructions_encodable tableText lines hlines⟩

end Tern
